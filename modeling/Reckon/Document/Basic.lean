import Reckon.Expr
import Reckon.Fault
import Reckon.Interner

/-!
# Documents

A document holds the tables of a calculation: expressions, definitions and evaluations, the order of
its statements, and the persons and greetings that go with it.

* `Document`: the tables.
* `Document.expr`, `Document.definition` and the like: a node by its index, with a fault if the index
  points nowhere; `Document.definition?` asks without a fault.
* `Document.targetName?`: the name that a call goes by.
-/

namespace Reckon

/-- A definition: a variable if it has no parameters, a function otherwise. -/
structure Definition where
  name : Name
  /-- The names of the parameters, in order; a name may occur twice. -/
  params : List Name
  body : ExprId
deriving DecidableEq, Repr

namespace Definition

/-- The number of parameters. -/
def arity (definition : Definition) : Nat :=
  definition.params.length

/-- Whether there are parameters. -/
def isFunction (definition : Definition) : Bool :=
  !definition.params.isEmpty

end Definition

/-- A request to compute an expression. -/
structure Evaluation where
  expr : ExprId
  source : Option String
deriving DecidableEq, Repr

/-- A statement of a document. -/
inductive Statement where
  | definition (id : DefId)
  | evaluation (id : EvaluationId)
deriving DecidableEq, Repr

/-- The node of a statement. -/
def Statement.node : Statement → Node
  | .definition id => id.node
  | .evaluation id => id.node

/-- Someone who can be greeted. -/
structure Person where
  name : String
deriving DecidableEq, Repr

/-- A greeting, of a person if the greeted name was found. -/
structure Greeting where
  person : Option PersonId
deriving DecidableEq, Repr

/-- The tables of a document. Indices inside the tables need not be in range. -/
structure Document where
  interner : Interner := .new
  exprs : Array Expr := #[]
  definitions : Array Definition := #[]
  evaluations : Array Evaluation := #[]
  /-- The definitions and evaluations in the order in which they stand. -/
  statements : Array Statement := #[]
  persons : Array Person := #[]
  greetings : Array Greeting := #[]

namespace Document

/-- The document without any node. -/
def empty : Document := {}

instance : Inhabited Document := ⟨empty⟩

/-! ### Nodes by index -/

/-- The expression with an index. -/
def expr (doc : Document) (id : ExprId) : Except Fault Expr :=
  fetch doc.exprs id.index

/-- The definition with an index. -/
def definition (doc : Document) (id : DefId) : Except Fault Definition :=
  fetch doc.definitions id.index

/-- The definition with an index, if there is one. -/
def definition? (doc : Document) (id : DefId) : Option Definition :=
  doc.definitions[id.index]?

/-- The evaluation with an index. -/
def evaluation (doc : Document) (id : EvaluationId) : Except Fault Evaluation :=
  fetch doc.evaluations id.index

/-- The person with an index. -/
def person (doc : Document) (id : PersonId) : Except Fault Person :=
  fetch doc.persons id.index

/-- The greeting with an index. -/
def greeting (doc : Document) (id : GreetingId) : Except Fault Greeting :=
  fetch doc.greetings id.index

theorem expr_eq_ok {doc : Document} {id : ExprId} {expr : Expr} :
    doc.expr id = .ok expr ↔ doc.exprs[id.index]? = some expr :=
  fetch_eq_ok

theorem definition_eq_ok {doc : Document} {id : DefId} {definition : Definition} :
    doc.definition id = .ok definition ↔ doc.definitions[id.index]? = some definition :=
  fetch_eq_ok

theorem evaluation_eq_ok {doc : Document} {id : EvaluationId} {evaluation : Evaluation} :
    doc.evaluation id = .ok evaluation ↔ doc.evaluations[id.index]? = some evaluation :=
  fetch_eq_ok

theorem person_eq_ok {doc : Document} {id : PersonId} {person : Person} :
    doc.person id = .ok person ↔ doc.persons[id.index]? = some person :=
  fetch_eq_ok

/-! ### Names -/

/-- The text of a name, empty if the name is unknown. -/
def text (doc : Document) (name : Name) : String :=
  doc.interner.text name

/-- The text of the name of a definition. -/
def definitionText (doc : Document) (id : DefId) : Except Fault String :=
  return doc.text (← doc.definition id).name

/-- The name that a call with this target goes by. There is none if the target is not in the
document. -/
def targetName? (doc : Document) : CallTarget → Option Name
  | .definition id => (doc.definition? id).map (·.name)
  | .parameter id index => (doc.definition? id).bind (·.params[index]?)

/-! ### Bounds -/

/-- More levels than expressions can nest without one that contains itself. A walk down the
expressions reaches at most every expression once, and then perhaps an index that is out of
range. -/
def height (doc : Document) : Nat :=
  doc.exprs.size + 1

end Document

end Reckon
