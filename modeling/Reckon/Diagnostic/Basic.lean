import Reckon.Diagnostic.Code
import Reckon.Node

/-!
# Diagnostics

A diagnostic tells the author of a document about a node: what is the matter, how bad it is, and in
which property of the node it lies.

* `Diagnostic.error`, `Diagnostic.warning`: a diagnostic with the description of its code as message.
* `Diagnostic.withMessage`, `Diagnostic.withProperty`, `Diagnostic.withNote`: the same diagnostic
  with more to say.
* `Diagnostic.render`: the diagnostic as text, one line for the message, one for the node, and one
  for each note.
-/

namespace Reckon

/-- How bad a diagnostic is. -/
inductive Severity where
  | error
  | warning
deriving DecidableEq, Repr

/-- The word for a severity. -/
def Severity.word : Severity → String
  | .error => "error"
  | .warning => "warning"

/-- A message about a node. -/
structure Diagnostic where
  code : Code
  severity : Severity
  message : String
  node : Node
  /-- The property of the node in which the matter lies. -/
  property : Option String := none
  notes : List String := []
deriving DecidableEq, Repr

namespace Diagnostic

/-- An error with the description of its code as message. -/
def error (code : Code) (node : Node) : Diagnostic :=
  { code, severity := .error, message := code.description, node }

/-- A warning with the description of its code as message. -/
def warning (code : Code) (node : Node) : Diagnostic :=
  { code, severity := .warning, message := code.description, node }

/-- Replaces the message. -/
def withMessage (diagnostic : Diagnostic) (message : String) : Diagnostic :=
  { diagnostic with message }

/-- Points to a property of the node. -/
def withProperty (diagnostic : Diagnostic) (property : String) : Diagnostic :=
  { diagnostic with property := some property }

/-- Adds a remark after the others. -/
def withNote (diagnostic : Diagnostic) (note : String) : Diagnostic :=
  { diagnostic with notes := diagnostic.notes ++ [note] }

/-- Whether the diagnostic is an error. -/
def isError (diagnostic : Diagnostic) : Bool :=
  diagnostic.severity = .error

/-- Where the diagnostic points: the node, and the property after a dot. -/
def place (diagnostic : Diagnostic) : String :=
  match diagnostic.property with
  | some property => s!"{diagnostic.node.render}.{property}"
  | none => diagnostic.node.render

/-- The lines of the diagnostic: message, place, notes. -/
def lines (diagnostic : Diagnostic) : List String :=
  s!"{diagnostic.severity.word} [{diagnostic.code.text}]: {diagnostic.message}" ::
    s!"  --> {diagnostic.place}" ::
    diagnostic.notes.map fun note => s!"  = note: {note}"

/-- The diagnostic as text, without a line end at the end. -/
def render (diagnostic : Diagnostic) : String :=
  "\n".intercalate diagnostic.lines

end Diagnostic

end Reckon
