import Reckon.Document.Basic

/-!
# Building a document

A document is built step by step. Each step that adds a node answers its index, the next free one of
its table; indices handed to a step are stored as they are. Tables have no greatest size here. Where
indices have 32 bits, a step has to be refused that adds to a table of `2 ^ 32` nodes; this limit is left
out.

* `Builder`: an action on the document being built.
* `Builder.addExpr`, `Builder.declare` and the like: the actions.
* `Step`: the actions as data, with `Step.run`; `Document.build` runs a list of steps. A step with a
  fault changes nothing, and the steps after it go on.
-/

namespace Reckon

/-- An action on the document being built. -/
abbrev Builder := EStateM Fault Document

namespace Builder

/-! ### Names and expressions -/

/-- The name of a text. -/
def intern (text : String) : Builder Name :=
  modifyGet fun doc =>
    let (name, interner) := doc.interner.intern text
    (name, { doc with interner })

/-- Adds an expression. -/
def addExpr (expr : Expr) : Builder ExprId :=
  modifyGet fun doc => (⟨doc.exprs.size⟩, { doc with exprs := doc.exprs.push expr })

/-- Adds a mention of a parameter, which the definition has to have. -/
def addParameter (definition : DefId) (index : Nat) : Builder ExprId := do
  let owner ← liftExcept ((← get).definition definition)
  if index < owner.arity then
    addExpr (.call (some (.parameter definition index)) [])
  else
    throw (.noParameter index)

/-! ### Statements -/

/-- Adds a statement that defines a name. The body is left open, as an error expression of its
own. -/
def declare (name : String) (params : List String) : Builder DefId := do
  let name ← intern name
  let params ← params.mapM intern
  let body ← addExpr .error
  modifyGet fun doc =>
    let id : DefId := ⟨doc.definitions.size⟩
    (id, { doc with
      definitions := doc.definitions.push { name, params, body }
      statements := doc.statements.push (.definition id) })

/-- Gives a definition its body. -/
def setBody (definition : DefId) (body : ExprId) : Builder Unit := do
  let doc ← get
  if definition.index < doc.definitions.size then
    set { doc with definitions := doc.definitions.modify definition.index ({ · with body }) }
  else
    throw (.outOfRange doc.definitions.size definition.index)

/-- Adds a statement that defines a name, together with the body. -/
def define (name : String) (params : List String) (body : ExprId) : Builder DefId := do
  let definition ← declare name params
  setBody definition body
  return definition

/-- Adds a statement that evaluates an expression. -/
def evaluate (expr : ExprId) (source : Option String) : Builder EvaluationId :=
  modifyGet fun doc =>
    let id : EvaluationId := ⟨doc.evaluations.size⟩
    (id, { doc with
      evaluations := doc.evaluations.push { expr, source }
      statements := doc.statements.push (.evaluation id) })

/-! ### Persons and greetings -/

/-- Adds a person. -/
def addPerson (name : String) : Builder PersonId :=
  modifyGet fun doc => (⟨doc.persons.size⟩, { doc with persons := doc.persons.push { name } })

/-- Adds a greeting. -/
def greet (person : Option PersonId) : Builder GreetingId :=
  modifyGet fun doc =>
    (⟨doc.greetings.size⟩, { doc with greetings := doc.greetings.push { person } })

end Builder

/-! ### Steps -/

/-- A building action as data. -/
inductive Step where
  | addExpr (expr : Expr)
  | addParameter (definition : DefId) (index : Nat)
  /-- Declares a definition without a body. -/
  | declare (name : String) (params : List String)
  | setBody (definition : DefId) (body : ExprId)
  | define (name : String) (params : List String) (body : ExprId)
  | evaluate (expr : ExprId) (source : Option String)
  | addPerson (name : String)
  | greet (person : Option PersonId)
  | intern (text : String)
deriving DecidableEq, Repr

/-- What a step answers. -/
inductive Built where
  | node (node : Node)
  | name (name : Name)
  | done
deriving DecidableEq, Repr

namespace Step

/-- Runs a step. -/
def run : Step → Builder Built
  | .addExpr expr => return .node (← Builder.addExpr expr).node
  | .addParameter definition index => return .node (← Builder.addParameter definition index).node
  | .declare name params => return .node (← Builder.declare name params).node
  | .setBody definition body => do
    Builder.setBody definition body
    return .done
  | .define name params body => return .node (← Builder.define name params body).node
  | .evaluate expr source => return .node (← Builder.evaluate expr source).node
  | .addPerson name => return .node (← Builder.addPerson name).node
  | .greet person => return .node (← Builder.greet person).node
  | .intern text => return .name (← Builder.intern text)

/-- Runs a step on a document. A fault leaves the document as it was. -/
def apply (step : Step) (doc : Document) : Except Fault Built × Document :=
  match step.run doc with
  | .ok built doc => (.ok built, doc)
  | .error fault doc => (.error fault, doc)

end Step

namespace Document

/-- Runs steps one after the other and keeps the answer of each. -/
def build (doc : Document) : List Step → List (Except Fault Built) × Document
  | [] => ([], doc)
  | step :: steps =>
    let (answer, doc) := step.apply doc
    let (answers, doc) := doc.build steps
    (answer :: answers, doc)

end Document

end Reckon
