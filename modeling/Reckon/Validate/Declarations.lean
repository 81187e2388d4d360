import Reckon.Diagnostic.Basic
import Reckon.Document.Basic

/-!
# Checks on persons and greetings

* `Document.nameDiagnostics`: a warning for each person whose name starts with a character that has
  an uppercase form. The empty name is left alone. Which characters these are depends on the version
  of the Unicode standard, so it is a parameter of the check, `changes`: whether a character differs
  from its full uppercase mapping. `Uppercase.changes` is such a parameter.
* `Document.greetingDiagnostics`: an error for each greeting of a person after the first. A greeting
  of nobody, or of a person that is not in the document, counts for nothing.
-/

namespace Reckon

/-- Whether a name starts with a character that has an uppercase form. -/
def Person.isUncapitalized (changes : Char → Bool) (person : Person) : Bool :=
  person.name.toList.head?.any changes

namespace Document

/-- The warning about an uncapitalized name. -/
def nameDiagnostic (id : PersonId) : Diagnostic :=
  (Diagnostic.warning .uncapitalizedName id.node)
    |>.withMessage "Person name should start with a capital."
    |>.withProperty "name"

/-- The warnings about names, in the order of the persons. -/
def nameDiagnostics (doc : Document) (changes : Char → Bool) : List Diagnostic :=
  doc.persons.toList.zipIdx.filterMap fun (person, index) =>
    if person.isUncapitalized changes then some (nameDiagnostic ⟨index⟩) else none

/-- The error about a person greeted for the time `count`. -/
def greetingDiagnostic (id : GreetingId) (person : Person) (count : Nat) : Diagnostic :=
  (Diagnostic.error .repeatedGreeting id.node)
    |>.withMessage
      s!"You can greet each person at most once! '{person.name}' is greeted {count} times."
    |>.withNote "greet each person a single time"

/-- What is known while greetings are counted. -/
structure GreetingCount where
  counts : Array Nat
  diagnostics : Array Diagnostic := #[]

/-- Counts a greeting. A greeting without a counter is passed over, and nothing else is asked before
the person is read. -/
def countGreeting (doc : Document) (state : GreetingCount) (id : GreetingId) (greeting : Greeting) :
    Except Fault GreetingCount :=
  match greeting.person with
  | none => return state
  | some person =>
    match state.counts[person.index]? with
    | none => return state
    | some before => do
      let count := before + 1
      let counts := state.counts.setIfInBounds person.index count
      if 1 < count then
        let greeted ← doc.person person
        return {
          counts
          diagnostics := state.diagnostics.push (greetingDiagnostic id greeted count) }
      else
        return { state with counts }

/-- The errors about greetings, in the order of the greetings. -/
def greetingDiagnostics (doc : Document) : Except Fault (List Diagnostic) := do
  let start : GreetingCount := { counts := .replicate doc.persons.size 0 }
  let state ← doc.greetings.toList.zipIdx.foldlM
    (fun state (greeting, index) => doc.countGreeting state ⟨index⟩ greeting) start
  return state.diagnostics.toList

end Document

end Reckon
