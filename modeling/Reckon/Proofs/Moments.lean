import Reckon.Proofs.Statements

/-!
# Moments of an evaluation

An evaluation takes up one expression after the other: the parts of an expression that was up before,
or the body of a function that was called. This file shows that what is so at the start and is handed
on in these two ways is so whenever an expression is taken up, with the environment and the stack of
that moment, and that a stop arises at such a moment.

* `Document.HandsOn`: a property of moments is handed on to parts and bodies.
* `Document.Raises`: a stop arises at an expression itself.
* `Machine.Waits`, `Machine.Holds`: the property along a machine, for all that is still to come. Each
  move keeps this (`Moves.holds`), and so does any number of them (`Reaches.holds`).
* `HandsOn.moment_of_reaches`: the property holds whenever an expression is up.
* `HandsOn.exists_raises`, `HandsOn.exists_raises_of_reports`: the errors of expressions and of runs
  arise at moments with the property.
-/

namespace Reckon

namespace Document

/-- What is so when an expression is taken up is so when its parts are, and when the body of the
function is that it calls. By then every argument has a value, and there was room for the frame. -/
structure HandsOn (doc : Document) (moment : CallStack → Environment → ExprId → Prop) : Prop where
  part : ∀ {stack : CallStack} {env : Environment} {whole part : ExprId}, moment stack env whole →
    doc.Child whole part → moment stack env part
  body : ∀ {stack inner : CallStack} {env : Environment} {call : ExprId} {function : DefId}
    {definition : Definition} {args : List ExprId} {values : List Value}, moment stack env call →
    doc.Calls env call function definition args → definition.arity = args.length →
    values.length = args.length → CallStack.push doc ⟨function, call⟩ stack = .ok () inner →
    moment inner (env.bindAll definition.params values) definition.body

/-- The stop arises at the expression itself, not at a part of it or in a body. -/
inductive Raises (doc : Document) (stack : CallStack) (env : Environment) (id : ExprId) : Stop → Prop
  | noExpr (h : doc.exprs.size ≤ id.index) :
      Raises doc stack env id (.fault (.outOfRange doc.exprs.size id.index))
  | unlinked {target : Option CallTarget} {args : List ExprId}
      (h : doc.exprs[id.index]? = some (.call target args))
      (hname : target.bind doc.targetName? = none) :
      Raises doc stack env id (.error (.unlinkedReference id))
  | noDefinition {name : Name} {function : DefId}
      (hb : env.lookup name = some (.function function))
      (hd : doc.definitions.size ≤ function.index) :
      Raises doc stack env id (.fault (.outOfRange doc.definitions.size function.index))
  | arity {function : DefId} {definition : Definition} {args : List ExprId}
      (h : doc.Calls env id function definition args) (harity : definition.arity ≠ args.length) :
      Raises doc stack env id (.error
        (.arityMismatch (doc.text definition.name) function id definition.arity args.length))
  | full {function : DefId} {definition : Definition} {args : List ExprId}
      (h : doc.Calls env id function definition args) (harity : definition.arity = args.length)
      (hfull : stack.limit ≤ stack.depth) :
      Raises doc stack env id
        (.error (.recursionLimit (doc.text definition.name) id stack.limit))

end Document

namespace Machine

variable {doc : Document} {moment : CallStack → Environment → ExprId → Prop} {stack : CallStack}
  {env : Environment} {frame : Frame} {definition : Definition} {values : List Value}
  {rest : List ExprId} {machine next : Machine}

/-! ### What is still to come -/

/-- A call has come to the values of its first arguments, and the rest are to be evaluated. -/
def Collects (doc : Document) (moment : CallStack → Environment → ExprId → Prop)
    (stack : CallStack) (env : Environment) (frame : Frame) (definition : Definition)
    (values : List Value) (rest : List ExprId) : Prop :=
  moment stack env frame.call ∧ ∃ known : List ExprId,
    doc.Calls env frame.call frame.definition definition (known ++ rest) ∧
    definition.arity = (known ++ rest).length ∧ values.length = known.length

theorem Collects.concat {arg : ExprId}
    (h : Collects doc moment stack env frame definition values (arg :: rest)) (value : Value) :
    Collects doc moment stack env frame definition (values ++ [value]) rest := by
  obtain ⟨hmoment, known, hcalls, harity, hlength⟩ := h
  rw [List.append_cons] at hcalls harity
  refine ⟨hmoment, known ++ [arg], hcalls, harity, ?_⟩
  simp [hlength]

theorem Collects.moment_arg {arg : ExprId} (h : doc.HandsOn moment)
    (hc : Collects doc moment stack env frame definition values (arg :: rest)) :
    moment stack env arg := by
  obtain ⟨hmoment, known, ⟨target, name, hexpr, -⟩, -⟩ := hc
  exact h.part hmoment ⟨_, hexpr, List.mem_append_right known List.mem_cons_self⟩

/-- A stack that cannot take the frame of a call is full. -/
theorem Collects.raises {stop : Stop} {last : CallStack}
    (h : Collects doc moment stack env frame definition values [])
    (hpush : CallStack.push doc frame stack = .error stop last) :
    doc.Raises stack env frame.call stop := by
  obtain ⟨-, known, hcalls, harity, -⟩ := h
  have hfull : stack.limit ≤ stack.depth := by
    by_contra hlt
    rw [CallStack.push_of_lt doc frame (Nat.not_le.1 hlt)] at hpush
    cases hpush
  rw [CallStack.push_of_le hcalls.definition_eq hfull] at hpush
  cases hpush
  exact .full hcalls harity hfull

/-- Whatever waits for a value has the property when it goes on, on the stack that is left by then. -/
inductive Waits (doc : Document) (moment : CallStack → Environment → ExprId → Prop) :
    List Task → CallStack → Prop
  | nil {stack : CallStack} : Waits doc moment [] stack
  | left {env : Environment} {op : Operator} {right : ExprId} {tasks : List Task}
      {stack : CallStack} (h : moment stack env right) (others : Waits doc moment tasks stack) :
      Waits doc moment (.left env op right :: tasks) stack
  | right {op : Operator} {left : Value} {tasks : List Task} {stack : CallStack}
      (others : Waits doc moment tasks stack) : Waits doc moment (.right op left :: tasks) stack
  | argument {env : Environment} {frame : Frame} {definition : Definition} {values : List Value}
      {arg : ExprId} {rest : List ExprId} {tasks : List Task} {stack : CallStack}
      (h : Collects doc moment stack env frame definition values (arg :: rest))
      (others : Waits doc moment tasks stack) :
      Waits doc moment (.argument env frame definition values rest :: tasks) stack
  | leave {tasks : List Task} {stack : CallStack} (others : Waits doc moment tasks stack.pop) :
      Waits doc moment (.leave :: tasks) stack

theorem Waits.tail {task : Task} {tasks : List Task} (h : Waits doc moment (task :: tasks) stack)
    (htask : task ≠ .leave) : Waits doc moment tasks stack := by
  cases h with
  | left _ others | right others | argument _ others => exact others
  | leave others => exact absurd rfl htask

/-- What a machine is about to do has the property. A stop has arisen at a moment with the property. -/
def InOrder (doc : Document) (moment : CallStack → Environment → ExprId → Prop)
    (stack : CallStack) : Control → Prop
  | .expr env id => moment stack env id
  | .arguments env frame definition values rest =>
    Collects doc moment stack env frame definition values rest
  | .value _ => True
  | .stop stop => ∃ origin env id, moment origin env id ∧ doc.Raises origin env id stop

/-- All that a machine does and waits for has the property. -/
structure Holds (doc : Document) (moment : CallStack → Environment → ExprId → Prop)
    (machine : Machine) : Prop where
  control : InOrder doc moment machine.stack machine.control
  tasks : Waits doc moment machine.tasks machine.stack

/-! ### Moves keep it -/

theorem Moves.holds (hmove : Moves doc machine next) (h : doc.HandsOn moment)
    (hm : Holds doc moment machine) : Holds doc moment next := by
  obtain ⟨hcontrol, htasks⟩ := hm
  cases hmove with
  | number | unreadable | unbound | bound => exact ⟨trivial, htasks⟩
  | binary hexpr =>
    exact ⟨h.part hcontrol (Document.child_left hexpr),
      .left (h.part hcontrol (Document.child_right hexpr)) htasks⟩
  | noExpr hle => exact ⟨⟨_, _, _, hcontrol, .noExpr hle⟩, htasks⟩
  | unlinked hexpr hname => exact ⟨⟨_, _, _, hcontrol, .unlinked hexpr hname⟩, htasks⟩
  | noDefinition _ _ hb hd => exact ⟨⟨_, _, _, hcontrol, .noDefinition hb hd⟩, htasks⟩
  | arity hcalls harity => exact ⟨⟨_, _, _, hcontrol, .arity hcalls harity⟩, htasks⟩
  | call hcalls harity => exact ⟨⟨hcontrol, [], hcalls, harity, rfl⟩, htasks⟩
  | argument => exact ⟨hcontrol.moment_arg h, .argument hcontrol htasks⟩
  | enter hpush =>
    obtain ⟨hmoment, known, hcalls, harity, hlength⟩ := hcontrol
    rw [List.append_nil] at hcalls harity
    refine ⟨h.body hmoment hcalls harity hlength hpush, .leave ?_⟩
    rw [CallStack.pop_of_push hpush]
    exact htasks
  | refuse hpush =>
    refine ⟨⟨_, _, _, hcontrol.1, hcontrol.raises hpush⟩, ?_⟩
    rw [CallStack.eq_of_push_eq_error hpush]
    exact htasks
  | left =>
    cases htasks with
    | left hmoment others => exact ⟨hmoment, .right others⟩
  | right => exact ⟨trivial, htasks.tail (by simp)⟩
  | next =>
    cases htasks with
    | argument hcollects others => exact ⟨hcollects.concat _, others⟩
  | leave =>
    cases htasks with
    | leave others => exact ⟨trivial, others⟩
  | drop hne => exact ⟨hcontrol, htasks.tail hne⟩
  | unwind =>
    cases htasks with
    | leave others => exact ⟨hcontrol, others⟩

theorem Reaches.holds (hreaches : Reaches doc machine next) (h : doc.HandsOn moment)
    (hm : Holds doc moment machine) : Holds doc moment next := by
  induction hreaches with
  | refl => exact hm
  | tail _ hmove ih => exact hmove.holds h ih

end Machine

namespace Document

variable {doc : Document} {moment : CallStack → Environment → ExprId → Prop}
  {stack : CallStack} {env : Environment} {id : ExprId} {error : EvalError}

/-- **A property that is handed on holds whenever an expression is up.** -/
theorem HandsOn.moment_of_reaches {machine : Machine} {later : Environment} {up : ExprId}
    (h : doc.HandsOn moment) (hstart : moment stack env id)
    (hreaches : Machine.Reaches doc (.start env id stack) machine)
    (hup : machine.control = .expr later up) : moment machine.stack later up := by
  have hholds := (hreaches.holds h ⟨hstart, .nil⟩).control
  rw [hup] at hholds
  exact hholds

/-- **An error arises at a moment with the property.** -/
theorem HandsOn.exists_raises (h : doc.HandsOn moment) (hstart : moment stack env id)
    (hy : doc.Yields stack env id (.error error)) :
    ∃ origin env id, moment origin env id ∧ doc.Raises origin env id (.error error) := by
  have hresult := hy.evalExpr_of_error
  have hreaches := Machine.performs_evalExpr doc env id stack [] (by simp [hresult])
  rw [hresult] at hreaches
  exact (hreaches.holds h ⟨hstart, .nil⟩).control

/-! ### Statements -/

/-- Processing the statement evaluates the expression. The body of a function is left alone. -/
def Evaluates (doc : Document) : Statement → ExprId → Prop
  | .definition number, id => ∃ definition, doc.definitions[number.index]? = some definition ∧
      definition.isFunction = false ∧ definition.body = id
  | .evaluation number, id => ∃ evaluation, doc.evaluations[number.index]? = some evaluation ∧
      evaluation.expr = id

theorem Evaluates.root?_eq {statement : Statement} (h : doc.Evaluates statement id) :
    doc.root? statement = some id := by
  cases statement with
  | definition number =>
    obtain ⟨definition, hd, -, rfl⟩ := h
    rw [root?, hd]
    rfl
  | evaluation number =>
    obtain ⟨evaluation, he, rfl⟩ := h
    rw [root?, he]
    rfl

theorem Computes.exists_yields_error {statement : Statement}
    (h : doc.Computes stack env statement (.error error)) :
    ∃ root, doc.Evaluates statement root ∧ doc.Yields stack env root (.error error) := by
  cases h with
  | assignment hd hf hy => exact ⟨_, ⟨_, hd, hf, rfl⟩, hy⟩
  | evaluation he hy => exact ⟨_, ⟨_, he, rfl⟩, hy⟩

/-- **An error of a run arises at a moment with the property**, if the property holds whenever a
statement is about to be processed. Functions go by the names that statements give them. -/
theorem HandsOn.exists_raises_of_reports {evaluator : Evaluator}
    (h : evaluator.document.HandsOn moment)
    (hstart : ∀ env statement root, env.Functions evaluator.document.Introduces →
      statement ∈ evaluator.document.statements → evaluator.document.Evaluates statement root →
      moment (.new evaluator.config.maxCallDepth) env root)
    (hreports : evaluator.Reports error) :
    ∃ origin env id, moment origin env id ∧
      evaluator.document.Raises origin env id (.error error) := by
  obtain ⟨before, statement, after, pass, hsplit, hruns, hc⟩ := evaluator.fails_of_reports hreports
  obtain ⟨root, hevaluates, hy⟩ := hc.exists_yields_error
  obtain ⟨hbefore, hafter⟩ := mem_statements_of_split hsplit
  have hmoment := hstart pass.env statement root (hruns.introduced hbefore)
    (hafter statement List.mem_cons_self) hevaluates
  exact h.exists_raises hmoment hy

end Document

end Reckon
