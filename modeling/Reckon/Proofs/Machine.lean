import Mathlib.Logic.Relation
import Reckon.Proofs.Contract

/-!
# Evaluation move by move

`Document.evalExpr` gives the result of an evaluation and nothing in between. This file takes the
evaluation apart into single moves of a machine, so that there is something to say about every moment
of it. The machine has no bounds: it goes on as long as there is something to do.

* `Machine`: what is being done, what waits for its value, and the call stack.
* `Machine.Moves`: the rules, one for each thing that can happen. At most one of them applies
  (`Moves.unique`).
* `Machine.Reaches`: any number of moves.
* `Machine.performs_evalExpr`: the machine comes to the result of `Document.evalExpr`, whatever waits
  for it, unless the evaluation has no end.
-/

namespace Reckon

/-- What waits for a value. -/
inductive Task where
  /-- The left operand is being evaluated. -/
  | left (env : Environment) (op : Operator) (right : ExprId)
  /-- The right operand is being evaluated, the left one is known. -/
  | right (op : Operator) (left : Value)
  /-- An argument is being evaluated, between those that are known and those still to come. -/
  | argument (env : Environment) (frame : Frame) (definition : Definition) (values : List Value)
      (rest : List ExprId)
  /-- A body is being evaluated, in a frame that is to be closed. -/
  | leave

/-- What a machine is about to do. -/
inductive Control where
  | expr (env : Environment) (id : ExprId)
  /-- Goes on with the arguments of a call. -/
  | arguments (env : Environment) (frame : Frame) (definition : Definition) (values : List Value)
      (rest : List ExprId)
  /-- Hands a value to the first task. -/
  | value (value : Value)
  /-- Drops the tasks one by one. -/
  | stop (stop : Stop)

/-- An evaluation under way. -/
structure Machine where
  control : Control
  tasks : List Task
  stack : CallStack

namespace Machine

/-- The machine before an evaluation. -/
def start (env : Environment) (id : ExprId) (stack : CallStack) : Machine :=
  ⟨.expr env id, [], stack⟩

/-- The machine that has come to a result, with tasks still waiting. -/
def ofResult (tasks : List Task) : EStateM.Result Stop CallStack Value → Machine
  | .ok value stack => ⟨.value value, tasks, stack⟩
  | .error stop stack => ⟨.stop stop, tasks, stack⟩

/-- The rules of the machine. -/
inductive Moves (doc : Document) : Machine → Machine → Prop
  | number {env id tasks stack x} (h : doc.exprs[id.index]? = some (.number x)) :
      Moves doc ⟨.expr env id, tasks, stack⟩ ⟨.value (some x), tasks, stack⟩
  | unreadable {env id tasks stack} (h : doc.exprs[id.index]? = some .error) :
      Moves doc ⟨.expr env id, tasks, stack⟩ ⟨.value none, tasks, stack⟩
  | binary {env id tasks stack op left right}
      (h : doc.exprs[id.index]? = some (.binary op left right)) :
      Moves doc ⟨.expr env id, tasks, stack⟩ ⟨.expr env left, .left env op right :: tasks, stack⟩
  | noExpr {env id tasks stack} (h : doc.exprs.size ≤ id.index) :
      Moves doc ⟨.expr env id, tasks, stack⟩
        ⟨.stop (.fault (.outOfRange doc.exprs.size id.index)), tasks, stack⟩
  | unlinked {env id tasks stack target args}
      (h : doc.exprs[id.index]? = some (.call target args))
      (hname : target.bind doc.targetName? = none) :
      Moves doc ⟨.expr env id, tasks, stack⟩
        ⟨.stop (.error (.unlinkedReference id)), tasks, stack⟩
  | unbound {env id tasks stack target args name}
      (h : doc.exprs[id.index]? = some (.call target args))
      (hname : target.bind doc.targetName? = some name) (hb : env.lookup name = none) :
      Moves doc ⟨.expr env id, tasks, stack⟩ ⟨.value none, tasks, stack⟩
  | bound {env id tasks stack target args name value}
      (h : doc.exprs[id.index]? = some (.call target args))
      (hname : target.bind doc.targetName? = some name)
      (hb : env.lookup name = some (.value value)) :
      Moves doc ⟨.expr env id, tasks, stack⟩ ⟨.value value, tasks, stack⟩
  | noDefinition {env id tasks stack target args name} {function : DefId}
      (h : doc.exprs[id.index]? = some (.call target args))
      (hname : target.bind doc.targetName? = some name)
      (hb : env.lookup name = some (.function function))
      (hd : doc.definitions.size ≤ function.index) :
      Moves doc ⟨.expr env id, tasks, stack⟩
        ⟨.stop (.fault (.outOfRange doc.definitions.size function.index)), tasks, stack⟩
  | arity {env id tasks stack function definition args}
      (h : doc.Calls env id function definition args) (harity : definition.arity ≠ args.length) :
      Moves doc ⟨.expr env id, tasks, stack⟩
        ⟨.stop (.error (.arityMismatch (doc.text definition.name) function id definition.arity
          args.length)), tasks, stack⟩
  | call {env id tasks stack function definition args}
      (h : doc.Calls env id function definition args) (harity : definition.arity = args.length) :
      Moves doc ⟨.expr env id, tasks, stack⟩
        ⟨.arguments env ⟨function, id⟩ definition [] args, tasks, stack⟩
  | argument {env frame definition values arg rest tasks stack} :
      Moves doc ⟨.arguments env frame definition values (arg :: rest), tasks, stack⟩
        ⟨.expr env arg, .argument env frame definition values rest :: tasks, stack⟩
  | enter {env frame definition values tasks stack inner}
      (h : CallStack.push doc frame stack = .ok () inner) :
      Moves doc ⟨.arguments env frame definition values [], tasks, stack⟩
        ⟨.expr (env.bindAll definition.params values) definition.body, .leave :: tasks, inner⟩
  | refuse {env frame definition values tasks stack stop next}
      (h : CallStack.push doc frame stack = .error stop next) :
      Moves doc ⟨.arguments env frame definition values [], tasks, stack⟩
        ⟨.stop stop, tasks, next⟩
  | left {value env op right tasks stack} :
      Moves doc ⟨.value value, .left env op right :: tasks, stack⟩
        ⟨.expr env right, .right op value :: tasks, stack⟩
  | right {value op x tasks stack} :
      Moves doc ⟨.value value, .right op x :: tasks, stack⟩
        ⟨.value (Value.operate op x value), tasks, stack⟩
  | next {value env frame definition values rest tasks stack} :
      Moves doc ⟨.value value, .argument env frame definition values rest :: tasks, stack⟩
        ⟨.arguments env frame definition (values ++ [value]) rest, tasks, stack⟩
  | leave {value tasks stack} :
      Moves doc ⟨.value value, .leave :: tasks, stack⟩ ⟨.value value, tasks, stack.pop⟩
  | drop {stop task tasks stack} (h : task ≠ .leave) :
      Moves doc ⟨.stop stop, task :: tasks, stack⟩ ⟨.stop stop, tasks, stack⟩
  | unwind {stop tasks stack} :
      Moves doc ⟨.stop stop, .leave :: tasks, stack⟩ ⟨.stop stop, tasks, stack.pop⟩

variable {doc : Document} {env : Environment} {id : ExprId} {tasks : List Task}
  {stack : CallStack} {machine next other : Machine}

/-- Any number of moves. -/
def Reaches (doc : Document) : Machine → Machine → Prop :=
  Relation.ReflTransGen (Moves doc)

theorem Moves.reaches (h : Moves doc machine next) : Reaches doc machine next :=
  .single h

theorem Moves.unique (h : Moves doc machine next) (h' : Moves doc machine other) :
    next = other := by
  cases h <;> cases h' <;> grind [Document.Calls]

/-! ### The machine and the evaluator -/

/-- An evaluation that ran into one of its bounds. -/
def Endless {α : Type} (result : EStateM.Result Stop CallStack α) : Prop :=
  ∃ stack, result = .error (.fault .endless) stack

@[simp]
theorem not_endless_ok {α : Type} (a : α) (stack : CallStack) :
    ¬ Endless (.ok a stack : EStateM.Result Stop CallStack α) := by
  rintro ⟨_, ⟨⟩⟩

@[simp]
theorem endless_error {α : Type} {stop : Stop} {stack : CallStack} :
    Endless (.error stop stack : EStateM.Result Stop CallStack α) ↔ stop = .fault .endless := by
  constructor
  · rintro ⟨_, ⟨⟩⟩
    rfl
  · rintro rfl
    exact ⟨stack, rfl⟩

/-- The machine comes to the result of the action from the expression, whatever waits for it, unless
the action is endless. -/
def Performs (doc : Document) (env : Environment) (id : ExprId) (action : EvalM Value) : Prop :=
  ∀ (stack : CallStack) (tasks : List Task), ¬ Endless (action stack) →
    Reaches doc ⟨.expr env id, tasks, stack⟩ (ofResult tasks (action stack))

theorem performs_binary {op : Operator} {left right : ExprId} {actionLeft actionRight : EvalM Value}
    (h : doc.exprs[id.index]? = some (.binary op left right))
    (hleft : Performs doc env left actionLeft) (hright : Performs doc env right actionRight) :
    Performs doc env id (do
      let x ← actionLeft
      let y ← actionRight
      return Value.operate op x y) := by
  intro stack tasks hfinite
  have hbegin : Reaches doc ⟨.expr env id, tasks, stack⟩
      ⟨.expr env left, .left env op right :: tasks, stack⟩ := (Moves.binary h).reaches
  simp only [bind, EStateM.bind] at hfinite ⊢
  have hl := hleft stack (.left env op right :: tasks)
  cases hx : actionLeft stack with
  | error stop middle =>
    simp only [hx, endless_error] at hfinite hl ⊢
    have hdrop : Moves doc ⟨.stop stop, .left env op right :: tasks, middle⟩
        ⟨.stop stop, tasks, middle⟩ := .drop (by simp)
    exact (hbegin.trans (hl hfinite)).tail hdrop
  | ok x middle =>
    simp only [hx] at hfinite hl ⊢
    have hmiddle := (hbegin.trans (hl (not_endless_ok _ _))).tail Moves.left
    have hr := hright middle (.right op x :: tasks)
    cases hy : actionRight middle with
    | error stop last =>
      simp only [hy, endless_error] at hfinite hr ⊢
      have hdrop : Moves doc ⟨.stop stop, .right op x :: tasks, last⟩
          ⟨.stop stop, tasks, last⟩ := .drop (by simp)
      exact (hmiddle.trans (hr hfinite)).tail hdrop
    | ok y last =>
      simp only [hy] at hr ⊢
      exact (hmiddle.trans (hr (not_endless_ok _ _))).tail Moves.right

/-- Arguments are evaluated one after the other, up to the first that stops. -/
theorem reaches_arguments {argument : ExprId → EvalM Value} {frame : Frame}
    {definition : Definition} {rest : List ExprId}
    (h : ∀ arg ∈ rest, Performs doc env arg (argument arg)) (values : List Value)
    (stack : CallStack) (tasks : List Task) (hfinite : ¬ Endless (rest.mapM argument stack)) :
    Reaches doc ⟨.arguments env frame definition values rest, tasks, stack⟩
      (match rest.mapM argument stack with
      | .ok more next => ⟨.arguments env frame definition (values ++ more) [], tasks, next⟩
      | .error stop next => ⟨.stop stop, tasks, next⟩) := by
  induction rest generalizing values stack with
  | nil =>
    show Reaches doc _ ⟨.arguments env frame definition (values ++ []) [], tasks, stack⟩
    rw [List.append_nil]
    exact .refl
  | cons arg rest ih =>
    have hbegin : Reaches doc ⟨.arguments env frame definition values (arg :: rest), tasks, stack⟩
        ⟨.expr env arg, .argument env frame definition values rest :: tasks, stack⟩ :=
      Moves.argument.reaches
    have harg := h arg List.mem_cons_self stack (.argument env frame definition values rest :: tasks)
    rw [List.mapM_cons] at hfinite ⊢
    simp only [bind, EStateM.bind] at hfinite ⊢
    cases hv : argument arg stack with
    | error stop middle =>
      simp only [hv, endless_error] at hfinite harg ⊢
      have hdrop : Moves doc ⟨.stop stop, .argument env frame definition values rest :: tasks, middle⟩
          ⟨.stop stop, tasks, middle⟩ := .drop (by simp)
      exact (hbegin.trans (harg hfinite)).tail hdrop
    | ok value middle =>
      simp only [hv] at hfinite harg ⊢
      have hmiddle := (hbegin.trans (harg (not_endless_ok _ _))).tail Moves.next
      have hrest := ih (fun x hx => h x (List.mem_cons_of_mem arg hx)) (values ++ [value]) middle
      cases hvs : rest.mapM argument middle with
      | error stop last =>
        simp only [hvs, endless_error] at hfinite hrest ⊢
        exact hmiddle.trans (hrest hfinite)
      | ok more last =>
        simp only [hvs] at hrest ⊢
        have hlast := hmiddle.trans (hrest (not_endless_ok _ _))
        rwa [List.append_assoc, List.singleton_append] at hlast

/-- A body is entered in a frame of its own, and left however it ends. -/
theorem reaches_inFrame {frame : Frame} {definition : Definition} {values : List Value}
    {action : EvalM Value}
    (h : Performs doc (env.bindAll definition.params values) definition.body action)
    (stack : CallStack) (tasks : List Task)
    (hfinite : ¬ Endless (EvalM.inFrame doc frame action stack)) :
    Reaches doc ⟨.arguments env frame definition values [], tasks, stack⟩
      (ofResult tasks (EvalM.inFrame doc frame action stack)) := by
  unfold EvalM.inFrame at hfinite ⊢
  cases hpush : CallStack.push doc frame stack with
  | error stop next => exact (Moves.refuse hpush).reaches
  | ok _ inner =>
    have henter : Reaches doc ⟨.arguments env frame definition values [], tasks, stack⟩
        ⟨.expr (env.bindAll definition.params values) definition.body, .leave :: tasks, inner⟩ :=
      (Moves.enter hpush).reaches
    have hbody := h inner (.leave :: tasks)
    simp only [hpush] at hfinite ⊢
    cases hresult : action inner with
    | error stop next =>
      simp only [hresult, endless_error] at hfinite hbody ⊢
      exact (henter.trans (hbody hfinite)).tail Moves.unwind
    | ok value next =>
      simp only [hresult] at hbody ⊢
      exact (henter.trans (hbody (not_endless_ok _ _))).tail Moves.leave

theorem performs_calls {argument : ExprId → EvalM Value}
    {enter : Environment → ExprId → EvalM Value} {function : DefId} {definition : Definition}
    {args : List ExprId} (h : doc.Calls env id function definition args)
    (hargs : ∀ arg ∈ args, Performs doc env arg (argument arg))
    (henter : ∀ env body, Performs doc env body (enter env body))
    (harity : definition.arity = args.length) :
    Performs doc env id (do
      let values ← args.mapM argument
      EvalM.inFrame doc { definition := function, call := id }
        (enter (env.bindAll definition.params values) definition.body)) := by
  intro stack tasks hfinite
  have hbegin : Reaches doc ⟨.expr env id, tasks, stack⟩
      ⟨.arguments env ⟨function, id⟩ definition [] args, tasks, stack⟩ :=
    (Moves.call h harity).reaches
  have hall := @reaches_arguments doc env argument ⟨function, id⟩ definition args hargs [] stack tasks
  simp only [bind, EStateM.bind] at hfinite ⊢
  cases hvs : args.mapM argument stack with
  | error stop middle =>
    simp only [hvs, endless_error] at hfinite hall ⊢
    exact hbegin.trans (hall hfinite)
  | ok values middle =>
    simp only [hvs, List.nil_append] at hfinite hall ⊢
    have hmiddle := hbegin.trans (hall (not_endless_ok _ _))
    exact hmiddle.trans (reaches_inFrame (henter _ _) middle tasks hfinite)

/-- A call, by what its name stands for. -/
theorem performs_call {enter : Environment → ExprId → EvalM Value} {target : Option CallTarget}
    {args : List ExprId} {height : ℕ}
    (henter : ∀ env body, Performs doc env body (enter env body))
    (hexpr : doc.exprs[id.index]? = some (.call target args))
    (hargs : ∀ arg ∈ args, Performs doc env arg (doc.evalNode enter height env arg)) :
    Performs doc env id (doc.evalNode enter (height + 1) env id) := by
  obtain hname | ⟨name, hname, hb | ⟨value, hb⟩ | ⟨function, hb, hd | ⟨definition, hcalls⟩⟩⟩ :=
    Document.call_cases env hexpr
  · rw [Document.evalNode_of_unlinked hexpr hname]
    exact fun stack tasks _ => (Moves.unlinked hexpr hname).reaches
  · rw [Document.evalNode_of_unbound hexpr hname hb]
    exact fun stack tasks _ => (Moves.unbound hexpr hname hb).reaches
  · rw [Document.evalNode_of_value hexpr hname hb]
    exact fun stack tasks _ => (Moves.bound hexpr hname hb).reaches
  · rw [Document.evalNode_of_undefined hexpr hname hb hd]
    exact fun stack tasks _ => (Moves.noDefinition hexpr hname hb hd).reaches
  · by_cases harity : definition.arity = args.length
    · rw [Document.evalNode_of_calls hcalls harity]
      exact performs_calls hcalls hargs henter harity
    · rw [Document.evalNode_of_arity hcalls harity]
      exact fun stack tasks _ => (Moves.arity hcalls harity).reaches

theorem performs_evalNode {enter : Environment → ExprId → EvalM Value}
    (henter : ∀ env body, Performs doc env body (enter env body)) (height : ℕ) :
    ∀ id, Performs doc env id (doc.evalNode enter height env id) := by
  induction height with
  | zero =>
    intro id stack tasks hfinite
    exact absurd ⟨stack, rfl⟩ hfinite
  | succ height ih =>
    intro id
    cases hexpr : doc.exprs[id.index]? with
    | none =>
      have hle : doc.exprs.size ≤ id.index := Array.getElem?_eq_none_iff.1 hexpr
      rw [Document.evalNode_of_size_le hle]
      exact fun stack tasks _ => (Moves.noExpr hle).reaches
    | some expr =>
      cases expr with
      | number x =>
        rw [Document.evalNode_of_number hexpr]
        exact fun stack tasks _ => (Moves.number hexpr).reaches
      | binary op left right =>
        rw [Document.evalNode_of_binary hexpr]
        exact performs_binary hexpr (ih left) (ih right)
      | call target args => exact performs_call henter hexpr fun arg _ => ih arg
      | error =>
        rw [Document.evalNode_of_error hexpr]
        exact fun stack tasks _ => (Moves.unreadable hexpr).reaches

theorem performs_evalWithin (doc : Document) (room : ℕ) :
    ∀ env id, Performs doc env id (doc.evalWithin room env id) := by
  induction room with
  | zero =>
    intro env id
    apply performs_evalNode
    -- a body that is entered without room is given up as endless
    intro env body stack tasks hfinite
    exact absurd ⟨stack, rfl⟩ hfinite
  | succ room ih =>
    intro env id
    exact performs_evalNode ih doc.height id

/-- **The machine comes to the result of an evaluation.** -/
theorem performs_evalExpr (doc : Document) (env : Environment) (id : ExprId) :
    Performs doc env id (doc.evalExpr env id) :=
  fun stack => performs_evalWithin doc stack.room env id stack

end Machine

end Reckon
