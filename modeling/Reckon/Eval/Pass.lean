import Reckon.Eval.Config
import Reckon.Eval.Expr
import Reckon.Eval.Results

/-!
# Evaluation of documents

A pass processes the statements of a document in order, with one environment. A variable is computed
where it is defined, a function is bound as it is, and an evaluation is computed and recorded.

* `Document.runStatement`, `Document.runPass`: the pass.
* `Document.evaluate`, `Document.evaluateExpr`: a document, or one expression outside of it, with the
  default configuration.
* `Evaluator`: a document with a configuration and a call stack, which each run starts afresh.
-/

namespace Reckon

/-- What a pass carries from statement to statement. -/
structure Pass where
  env : Environment := .empty
  results : Results := .empty

/-- Lets an error pass if it is to be recorded, and stops with it otherwise. -/
def ErrorPolicy.admit (policy : ErrorPolicy) (error : EvalError) : EvalM Unit :=
  match policy with
  | .abortPass => EvalM.fail error
  | .perEvaluation => return

namespace Document

/-- Processes a statement. A variable that cannot be computed is bound to no value. -/
def runStatement (doc : Document) (policy : ErrorPolicy) (pass : Pass) : Statement → EvalM Pass
  | .definition id => do
    let definition ← doc.definition id
    if definition.isFunction then
      return { pass with env := pass.env.define definition.name (.function id) }
    else
      match ← EvalM.attempt (doc.evalExpr pass.env definition.body) with
      | .ok value => return { pass with env := pass.env.define definition.name (.value value) }
      | .error error =>
        policy.admit error
        return {
          env := pass.env.define definition.name (.value none)
          results := pass.results.recordFailure id error }
  | .evaluation id => do
    let evaluation ← doc.evaluation id
    let outcome ← EvalM.attempt (doc.evalExpr pass.env evaluation.expr)
    match outcome with
    | .ok _ => return { pass with results := pass.results.record id outcome }
    | .error error =>
      policy.admit error
      return { pass with results := pass.results.record id outcome }

/-- Processes the statements of a document. -/
def runPass (doc : Document) (policy : ErrorPolicy) : EvalM Pass :=
  doc.statements.toList.foldlM (doc.runStatement policy) {}

/-! ### One statement of a pass -/

section Statement

variable {doc : Document} {policy : ErrorPolicy} {pass : Pass} {stack next : CallStack}

theorem runStatement_of_function {id : DefId} {definition : Definition}
    (h : doc.definitions[id.index]? = some definition) (hf : definition.isFunction = true) :
    doc.runStatement policy pass (.definition id) stack =
      .ok { pass with env := pass.env.define definition.name (.function id) } stack := by
  rw [runStatement, definition_eq_ok.2 h]
  show (if definition.isFunction = true then _ else _ : EvalM Pass) stack = _
  rw [if_pos hf]
  rfl

theorem runStatement_of_variable {id : DefId} {definition : Definition} {value : Value}
    (h : doc.definitions[id.index]? = some definition) (hf : definition.isFunction = false)
    (hv : EvalM.attempt (doc.evalExpr pass.env definition.body) stack = .ok (.ok value) next) :
    doc.runStatement policy pass (.definition id) stack =
      .ok { pass with env := pass.env.define definition.name (.value value) } next := by
  rw [runStatement, definition_eq_ok.2 h]
  show (if definition.isFunction = true then _ else _ : EvalM Pass) stack = _
  rw [if_neg (by simp [hf])]
  simp only [bind, EStateM.bind, hv]
  rfl

/-- A failing variable ends the pass or is recorded, by the policy. -/
theorem runStatement_of_failed_variable {id : DefId} {definition : Definition} {error : EvalError}
    (h : doc.definitions[id.index]? = some definition) (hf : definition.isFunction = false)
    (he : EvalM.attempt (doc.evalExpr pass.env definition.body) stack = .ok (.error error) next) :
    doc.runStatement policy pass (.definition id) stack =
      match policy with
      | .abortPass => .error (.error error) next
      | .perEvaluation =>
        .ok
          { env := pass.env.define definition.name (.value none)
            results := pass.results.recordFailure id error } next := by
  rw [runStatement, definition_eq_ok.2 h]
  show (if definition.isFunction = true then _ else _ : EvalM Pass) stack = _
  rw [if_neg (by simp [hf])]
  simp only [bind, EStateM.bind, he]
  cases policy <;> rfl

theorem runStatement_of_evaluation {id : EvaluationId} {evaluation : Evaluation} {value : Value}
    (h : doc.evaluations[id.index]? = some evaluation)
    (hv : EvalM.attempt (doc.evalExpr pass.env evaluation.expr) stack = .ok (.ok value) next) :
    doc.runStatement policy pass (.evaluation id) stack =
      .ok { pass with results := pass.results.record id (.ok value) } next := by
  rw [runStatement, evaluation_eq_ok.2 h]
  show (EvalM.attempt (doc.evalExpr pass.env evaluation.expr) >>= _ : EvalM Pass) stack = _
  simp only [bind, EStateM.bind, hv]
  rfl

/-- A failing evaluation ends the pass or is recorded, by the policy. -/
theorem runStatement_of_failed_evaluation {id : EvaluationId} {evaluation : Evaluation}
    {error : EvalError} (h : doc.evaluations[id.index]? = some evaluation)
    (he : EvalM.attempt (doc.evalExpr pass.env evaluation.expr) stack = .ok (.error error) next) :
    doc.runStatement policy pass (.evaluation id) stack =
      match policy with
      | .abortPass => .error (.error error) next
      | .perEvaluation => .ok { pass with results := pass.results.record id (.error error) } next := by
  rw [runStatement, evaluation_eq_ok.2 h]
  show (EvalM.attempt (doc.evalExpr pass.env evaluation.expr) >>= _ : EvalM Pass) stack = _
  simp only [bind, EStateM.bind, he]
  cases policy <;> rfl

end Statement

end Document

/-- A document set up for evaluation. -/
structure Evaluator where
  document : Document
  config : Config
  /-- The call stack as the last evaluation left it. -/
  stack : CallStack

namespace Evaluator

/-- Sets up a document. -/
def new (document : Document) (config : Config) : Evaluator :=
  { document, config, stack := .new config.maxCallDepth }

/-- Performs an action on an empty stack. -/
def perform {α : Type} (evaluator : Evaluator) (action : EvalM α) :
    Except Stop α × Evaluator :=
  match action (.new evaluator.config.maxCallDepth) with
  | .ok a stack => (.ok a, { evaluator with stack })
  | .error stop stack => (.error stop, { evaluator with stack })

/-- Evaluates the document. -/
def run (evaluator : Evaluator) : Except Stop Results × Evaluator :=
  evaluator.perform
    (Pass.results <$> evaluator.document.runPass evaluator.config.errorPolicy)

/-- Evaluates one expression, with no name bound. -/
def evalDetached (evaluator : Evaluator) (id : ExprId) : Except Stop Value × Evaluator :=
  evaluator.perform (evaluator.document.evalExpr .empty id)

end Evaluator

namespace Document

/-- Evaluates a document with the default configuration. -/
def evaluate (doc : Document) : Except Stop Results :=
  (Evaluator.new doc default).run.1

/-- Evaluates one expression with the default configuration, and no name bound. -/
def evaluateExpr (doc : Document) (id : ExprId) : Except Stop Value :=
  ((Evaluator.new doc default).evalDetached id).1

end Document

end Reckon
