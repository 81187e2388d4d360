import Reckon.Document.Basic

/-!
# Well-formed documents

A document is well formed if its expressions and statements can be followed without a fault: every
operand, argument, body and evaluated expression is in the table of expressions, and no expression
contains itself. Call targets and greeted persons may point nowhere, for nothing follows them blindly.

* `Document.Child`, `Document.Contains`: one step down from an expression, and any number of them.
* `Document.IsRoot`: the expressions of definitions and evaluations.
* `Document.WellFormed`.
* `Document.not_contains_self`: expressions that are made of earlier ones do not contain themselves.
-/

namespace Reckon.Document

/-- `part` is an operand or an argument of `whole`. -/
def Child (doc : Document) (whole part : ExprId) : Prop :=
  ∃ expr, doc.exprs[whole.index]? = some expr ∧ part ∈ expr.children

/-- `part` stands somewhere below `whole`. -/
inductive Contains (doc : Document) : (whole part : ExprId) → Prop
  | child {whole part : ExprId} (h : doc.Child whole part) : doc.Contains whole part
  | deeper {whole middle part : ExprId} (h : doc.Child whole middle)
      (rest : doc.Contains middle part) : doc.Contains whole part

/-- `id` is the body of a definition or the expression of an evaluation. -/
def IsRoot (doc : Document) (id : ExprId) : Prop :=
  (∃ definition ∈ doc.definitions, definition.body = id) ∨
    ∃ evaluation ∈ doc.evaluations, evaluation.expr = id

/-- The index of a statement is in the table it points into. -/
def HasStatement (doc : Document) : Statement → Prop
  | .definition id => id.index < doc.definitions.size
  | .evaluation id => id.index < doc.evaluations.size

instance (doc : Document) : DecidablePred doc.HasStatement
  | .definition id => inferInstanceAs (Decidable (id.index < doc.definitions.size))
  | .evaluation id => inferInstanceAs (Decidable (id.index < doc.evaluations.size))

/-- All that a document is followed through is there, and no expression contains itself. -/
structure WellFormed (doc : Document) : Prop where
  /-- Operands and arguments are in the table. -/
  child_lt : ∀ {whole part : ExprId}, doc.Child whole part → part.index < doc.exprs.size
  /-- Bodies and evaluated expressions are in the table. -/
  root_lt : ∀ {id : ExprId}, doc.IsRoot id → id.index < doc.exprs.size
  /-- No expression contains itself. -/
  acyclic : ∀ id : ExprId, ¬ doc.Contains id id
  /-- The statements are in their tables. -/
  hasStatement : ∀ statement ∈ doc.statements, doc.HasStatement statement

variable {doc : Document} {a b c : ExprId}

theorem Contains.trans (hab : doc.Contains a b) (hbc : doc.Contains b c) : doc.Contains a c := by
  induction hab with
  | child h => exact .deeper h hbc
  | deeper h _ ih => exact .deeper h (ih hbc)

/-- Expressions whose parts come before them in the table do not contain themselves. -/
theorem not_contains_self
    (h : ∀ whole part : ExprId, doc.Child whole part → part.index < whole.index) (id : ExprId) :
    ¬ doc.Contains id id := by
  have lt {whole part : ExprId} (hc : doc.Contains whole part) : part.index < whole.index := by
    induction hc with
    | child hc => exact h _ _ hc
    | deeper hc _ ih => exact Nat.lt_trans ih (h _ _ hc)
  exact fun hc => Nat.lt_irrefl _ (lt hc)

end Reckon.Document
