import Reckon.Environment
import Reckon.Eval.CallStack

/-!
# Evaluation of expressions

Expressions are evaluated from left to right in an environment. A call goes by the name of its
target, and the binding of this name decides: an unbound name has no value, a variable has its value,
and a function is entered. Its body is evaluated in the environment of the caller with the parameters
bound anew, so that it sees the names bound where it is called, and nothing it binds is seen by the
caller.

* `EvalM`: an action on the call stack that may stop.
* `Document.bindArguments`: the environment of a body, with each value bound before the next argument is
  evaluated. By `Document.bindArguments_eq` the arguments might as well be evaluated all first.
* `Document.evalNode`: evaluation within one frame. It recurs on a bound for the nesting of
  expressions and leaves the bodies of functions to its argument `enter`.
* `Document.evalWithin`: evaluation with a given number of further frames.
* `Document.evalExpr`: evaluation with all the room that the stack has. Neither bound is ever met:
  a stack without room refuses the frame before its body is entered, and expressions that do not
  contain themselves nest no deeper than `Document.height`.
-/

namespace Reckon

/-- An action on the call stack that may stop early. -/
abbrev EvalM := EStateM Stop CallStack

instance : MonadLift (Except Fault) EvalM where
  monadLift
    | .ok a => pure a
    | .error fault => throw (.fault fault)

namespace EvalM

variable {α : Type}

/-- Ends with an error. -/
def fail (error : EvalError) : EvalM α :=
  throw (.error error)

/-- The outcome of an action, an error included. A fault still stops. -/
def attempt (action : EvalM α) : EvalM (Except EvalError α) := fun stack =>
  match action stack with
  | .ok a stack => .ok (.ok a) stack
  | .error (.error error) stack => .ok (.error error) stack
  | .error (.fault fault) stack => .error (.fault fault) stack

/-- Runs an action in a frame of its own, which is closed however the action ends. -/
def inFrame (doc : Document) (frame : Frame) (action : EvalM α) : EvalM α := fun stack =>
  match CallStack.push doc frame stack with
  | .error stop stack => .error stop stack
  | .ok () inner =>
    match action inner with
    | .ok a inner => .ok a inner.pop
    | .error stop inner => .error stop inner.pop

end EvalM

namespace Document

/-- Binds names to the values of arguments in a copy of the environment of the caller. Each value is
bound as soon as `argument` has it, and before the next argument is looked at. -/
def bindArguments (argument : ExprId → EvalM Value) (env : Environment) (names : List Name)
    (args : List ExprId) : EvalM Environment :=
  (names.zip args).foldlM (fun callee (name, arg) => do
    let value ← argument arg
    return callee.define name (.value value)) env

/-- Evaluates a call. The number of arguments is checked first; then `argument` evaluates each of
them, and `enter` the body of the function in the environment made for it. -/
def evalCall (doc : Document) (argument : ExprId → EvalM Value)
    (enter : Environment → ExprId → EvalM Value) (env : Environment) (call : ExprId)
    (target : Option CallTarget) (args : List ExprId) : EvalM Value :=
  match target.bind doc.targetName? with
  | none => EvalM.fail (.unlinkedReference call)
  | some name =>
    match env.lookup name with
    | none => return none
    | some (.value value) => return value
    | some (.function id) => do
      let definition ← doc.definition id
      if definition.arity = args.length then
        let callee ← bindArguments argument env definition.params args
        EvalM.inFrame doc { definition := id, call } (enter callee definition.body)
      else
        EvalM.fail
          (.arityMismatch (doc.text definition.name) id call definition.arity args.length)

/-- Evaluates an expression that nests at most `height` levels deep. -/
def evalNode (doc : Document) (enter : Environment → ExprId → EvalM Value) :
    (height : Nat) → Environment → ExprId → EvalM Value
  | 0, _, _ => throw (.fault .endless)
  | height + 1, env, id => do
    match ← doc.expr id with
    | .number value => return some value
    | .binary op left right =>
      let left ← doc.evalNode enter height env left
      let right ← doc.evalNode enter height env right
      return Value.operate op left right
    | .call target args => doc.evalCall (doc.evalNode enter height env) enter env id target args
    | .error => return none

/-- Evaluates an expression with at most `room` more frames on the stack. -/
def evalWithin (doc : Document) : (room : Nat) → Environment → ExprId → EvalM Value
  | 0 => doc.evalNode (fun _ _ => throw (.fault .endless)) doc.height
  | room + 1 => doc.evalNode (doc.evalWithin room) doc.height

/-- Evaluates an expression. -/
def evalExpr (doc : Document) (env : Environment) (id : ExprId) : EvalM Value := do
  doc.evalWithin (← get).room env id

/-! ### One level of an evaluation -/

variable {doc : Document} {enter : Environment → ExprId → EvalM Value} {height : Nat}
  {env : Environment} {id : ExprId}

theorem evalNode_of_number {value : Binary64} (h : doc.exprs[id.index]? = some (.number value)) :
    doc.evalNode enter (height + 1) env id = pure (some value) := by
  rw [evalNode, expr_eq_ok.2 h]
  rfl

theorem evalNode_of_binary {op : Operator} {left right : ExprId}
    (h : doc.exprs[id.index]? = some (.binary op left right)) :
    doc.evalNode enter (height + 1) env id = (do
      let x ← doc.evalNode enter height env left
      let y ← doc.evalNode enter height env right
      return Value.operate op x y) := by
  rw [evalNode, expr_eq_ok.2 h]
  rfl

theorem evalNode_of_call {target : Option CallTarget} {args : List ExprId}
    (h : doc.exprs[id.index]? = some (.call target args)) :
    doc.evalNode enter (height + 1) env id =
      doc.evalCall (doc.evalNode enter height env) enter env id target args := by
  rw [evalNode, expr_eq_ok.2 h]
  rfl

theorem evalNode_of_error (h : doc.exprs[id.index]? = some .error) :
    doc.evalNode enter (height + 1) env id = pure none := by
  rw [evalNode, expr_eq_ok.2 h]
  rfl

section Call

variable {argument : ExprId → EvalM Value} {call : ExprId} {target : Option CallTarget}
  {args : List ExprId} {name : Name}

theorem evalCall_of_unlinked (h : target.bind doc.targetName? = none) :
    doc.evalCall argument enter env call target args = EvalM.fail (.unlinkedReference call) := by
  rw [evalCall, h]

theorem evalCall_of_unbound (h : target.bind doc.targetName? = some name)
    (hb : env.lookup name = none) :
    doc.evalCall argument enter env call target args = pure none := by
  simp only [evalCall, h, hb]

theorem evalCall_of_value {value : Value} (h : target.bind doc.targetName? = some name)
    (hb : env.lookup name = some (.value value)) :
    doc.evalCall argument enter env call target args = pure value := by
  simp only [evalCall, h, hb]

theorem bindArguments_cons (env : Environment) (first : Name) (names : List Name) (arg : ExprId)
    (args : List ExprId) :
    bindArguments argument env (first :: names) (arg :: args) = (do
      let value ← argument arg
      bindArguments argument (env.define first (.value value)) names args) := by
  simp only [bindArguments, List.zip_cons_cons, List.foldlM_cons, bind_assoc, pure_bind]

/-- It makes no difference if all arguments are evaluated before the first value is bound, as they are
evaluated in the environment of the caller. -/
theorem bindArguments_eq (env : Environment) {names : List Name}
    (h : names.length = args.length) :
    bindArguments argument env names args = (do
      let values ← args.mapM argument
      return env.bindAll names values) := by
  induction names generalizing args env with
  | nil =>
    obtain rfl : args = [] := List.length_eq_zero_iff.1 h.symm
    rfl
  | cons first names ih =>
    cases args with
    | nil => cases h
    | cons arg args =>
      have hrest (value : Value) := ih (env.define first (.value value)) (Nat.succ.inj h)
      simp only [bindArguments_cons, hrest, List.mapM_cons, bind_assoc, pure_bind]
      rfl

/-- A function is called if the arguments are as many as its parameters. -/
theorem evalCall_of_function {function : DefId} {definition : Definition}
    (h : target.bind doc.targetName? = some name)
    (hb : env.lookup name = some (.function function))
    (hd : doc.definitions[function.index]? = some definition) :
    doc.evalCall argument enter env call target args =
      if definition.arity = args.length then do
        let values ← args.mapM argument
        EvalM.inFrame doc { definition := function, call }
          (enter (env.bindAll definition.params values) definition.body)
      else
        EvalM.fail (.arityMismatch (doc.text definition.name) function call definition.arity
          args.length) := by
  simp only [evalCall, h, hb, definition_eq_ok.2 hd]
  show (if definition.arity = args.length then _ else _ : EvalM Value) = _
  by_cases harity : definition.arity = args.length
  · rw [if_pos harity, if_pos harity, bindArguments_eq env harity]
    simp only [bind_assoc, pure_bind]
  · rw [if_neg harity, if_neg harity]

end Call

/-- Whatever the room, evaluation is evaluation within one frame, with some way to enter bodies. -/
theorem exists_evalWithin_eq (doc : Document) (room : Nat) :
    ∃ enter, doc.evalWithin room = doc.evalNode enter doc.height := by
  cases room with
  | zero => exact ⟨_, rfl⟩
  | succ room => exact ⟨_, rfl⟩

end Document

end Reckon
