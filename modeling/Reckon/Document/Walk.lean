import Reckon.Document.Basic

/-!
# Walking a document

A walk visits the statements of a document in order, and under each statement its expressions depth
first: a node before its parts, the parts from left to right. A shared expression is visited once for
each way to reach it.

* `Visit`: a stop on the walk, with the node found there.
* `Document.walk`: carries a state along the walk. A fault of the visitor comes before a fault that
  the walk itself would meet further down.
* `Document.visits`: the nodes in the order of the walk.
-/

namespace Reckon

/-- A stop on a walk: a node with its index. -/
inductive Visit where
  /-- A definition, before its body. -/
  | definition (id : DefId) (definition : Definition)
  /-- An evaluation, before its expression. -/
  | evaluation (id : EvaluationId) (evaluation : Evaluation)
  /-- An expression, before its parts. -/
  | expr (id : ExprId) (expr : Expr)
deriving DecidableEq, Repr

/-- The node visited. -/
def Visit.node : Visit → Node
  | .definition id _ => id.node
  | .evaluation id _ => id.node
  | .expr id _ => id.node

namespace Document

variable {σ : Type}

/-- Visits an expression and all below it, at most `height` levels deep. -/
def walkExpr (doc : Document) (visit : σ → Visit → Except Fault σ) :
    (height : Nat) → σ → ExprId → Except Fault σ
  | 0, _, _ => .error .endless
  | height + 1, state, id => do
    let expr ← doc.expr id
    let state ← visit state (.expr id expr)
    expr.children.foldlM (doc.walkExpr visit height) state

/-- Visits a statement and all below it. -/
def walkStatement (doc : Document) (visit : σ → Visit → Except Fault σ) (state : σ) :
    Statement → Except Fault σ
  | .definition id => do
    let definition ← doc.definition id
    let state ← visit state (.definition id definition)
    doc.walkExpr visit doc.height state definition.body
  | .evaluation id => do
    let evaluation ← doc.evaluation id
    let state ← visit state (.evaluation id evaluation)
    doc.walkExpr visit doc.height state evaluation.expr

/-- Visits a document, carrying a state along. -/
def walk (doc : Document) (visit : σ → Visit → Except Fault σ) (state : σ) : Except Fault σ :=
  doc.statements.toList.foldlM (doc.walkStatement visit) state

/-- The nodes of a document in the order of a walk. -/
def visits (doc : Document) : Except Fault (Array Node) :=
  doc.walk (fun nodes visit => .ok (nodes.push visit.node)) #[]

end Document

end Reckon
