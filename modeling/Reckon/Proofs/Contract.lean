import Reckon.Eval.Pass
import Reckon.Proofs.Preorder

/-!
# Contracts of evaluation

What an evaluation keeps and how it can stop is the same argument each time: an expression hands on to
its parts what it was given, a call hands it on to the body that it enters, a statement hands it on to
the next one, and each of the few ways to stop is looked at once. This file makes the argument for all
such properties together.

* `EvalM.Ends`: an action ends with a value or a stop of a certain kind, on the stack that it started
  from. This goes through sequences, lists and frames.
* `Document.Calls`, `call_cases`: what a call finds under its name.
* `Contract`: assumptions about environments and expressions, with the stops that are allowed.
  `Contract.Sound` says that a document hands the assumptions on and stops in allowed ways only.
* `Contract.Sound.evalExpr`: an evaluation ends so. The induction is on the height within one frame and
  on the room of the stack across frames.
* `Contract.Covers`: the statements of a document meet the assumptions. Then a pass keeps the contract
  from statement to statement (`Contract.Covers.foldlM`), and every error that a run reports is
  allowed (`Contract.Covers.stop_of_reports`).
-/

namespace Reckon

/-! ### Actions that end -/

namespace EvalM

variable {α β : Type} {values : α → Prop} {stops : Stop → Prop} {stack : CallStack}

/-- An action ends with one of the values or one of the stops, and leaves the stack as it was. -/
def Ends (values : α → Prop) (stops : Stop → Prop) (action : EvalM α) (stack : CallStack) : Prop :=
  (∃ a, action stack = .ok a stack ∧ values a) ∨
    ∃ stop, action stack = .error stop stack ∧ stops stop

theorem ends_pure {a : α} (h : values a) : (pure a : EvalM α).Ends values stops stack :=
  Or.inl ⟨a, rfl, h⟩

theorem ends_throw {stop : Stop} (h : stops stop) :
    (throw stop : EvalM α).Ends values stops stack :=
  Or.inr ⟨stop, rfl, h⟩

theorem Ends.bind {action : EvalM α} {next : α → EvalM β} {results : β → Prop}
    (h : action.Ends values stops stack)
    (hnext : ∀ a, values a → (next a).Ends results stops stack) :
    (action >>= next).Ends results stops stack := by
  rcases h with ⟨a, ha, hvalue⟩ | ⟨stop, hs, hstop⟩
  · have hrun : (action >>= next) stack = next a stack := by
      simp only [Bind.bind, EStateM.bind, ha]
    rw [Ends, hrun]
    exact hnext a hvalue
  · refine Or.inr ⟨stop, ?_, hstop⟩
    simp only [Bind.bind, EStateM.bind, hs]

theorem Ends.map {action : EvalM α} {f : α → β}
    (h : action.Ends values stops stack) :
    (f <$> action).Ends (fun b => ∃ a, values a ∧ f a = b) stops stack := by
  rw [map_eq_pure_bind]
  exact h.bind fun a ha => ends_pure ⟨a, ha, rfl⟩

theorem ends_mapM {f : α → EvalM β} {list : List α}
    (h : ∀ a ∈ list, (f a).Ends (fun _ => True) stops stack) :
    (list.mapM f).Ends (fun _ => True) stops stack := by
  induction list with
  | nil => exact ends_pure trivial
  | cons a list ih =>
    rw [List.mapM_cons]
    apply (h a List.mem_cons_self).bind
    intro b _
    apply (ih fun x hx => h x (List.mem_cons_of_mem a hx)).bind
    intro bs _
    exact ends_pure trivial

/-- What every step of a list keeps, the whole list keeps. -/
theorem ends_foldlM {σ : Type} {inv : σ → Prop} {step : σ → α → EvalM σ} {list : List α}
    (h : ∀ a ∈ list, ∀ state, inv state → (step state a).Ends inv stops stack) {state : σ}
    (hstate : inv state) : (list.foldlM step state).Ends inv stops stack := by
  induction list generalizing state with
  | nil => exact ends_pure hstate
  | cons a list ih =>
    rw [List.foldlM_cons]
    apply (h a List.mem_cons_self state hstate).bind
    intro next hnext
    exact ih (fun x hx => h x (List.mem_cons_of_mem a hx)) hnext

/-- An attempt turns the errors among the stops into outcomes. -/
theorem Ends.attempt {action : EvalM α} (h : action.Ends values stops stack) :
    (EvalM.attempt action).Ends
      (fun outcome => (∃ a, outcome = .ok a ∧ values a) ∨
        ∃ error, outcome = .error error ∧ stops (.error error)) stops stack := by
  rcases h with ⟨a, ha, hvalue⟩ | ⟨stop, hs, hstop⟩
  · exact Or.inl ⟨.ok a, by rw [EvalM.attempt, ha], Or.inl ⟨a, rfl, hvalue⟩⟩
  · cases stop with
    | error error =>
      exact Or.inl ⟨.error error, by rw [EvalM.attempt, hs], Or.inr ⟨error, rfl, hstop⟩⟩
    | fault fault => exact Or.inr ⟨.fault fault, by rw [EvalM.attempt, hs], hstop⟩

/-- A frame is refused, or it is opened and closed again after the action. -/
theorem ends_inFrame {doc : Document} {frame : Frame} {definition : Definition} {action : EvalM α}
    (hd : doc.definitions[frame.definition.index]? = some definition)
    (hfull : stops (.error (.recursionLimit (doc.text definition.name) frame.call stack.limit)))
    (h : ∀ inner : CallStack, inner.limit = stack.limit → inner.room + 1 = stack.room →
      action.Ends values stops inner) :
    (inFrame doc frame action).Ends values stops stack := by
  rcases Nat.lt_or_ge stack.depth stack.limit with hlt | hge
  · have hpush := CallStack.push_of_lt doc frame hlt
    have hpop := CallStack.pop_of_push hpush
    have hroom := (CallStack.room_of_push hpush).symm
    rcases h { stack with frames := stack.frames.push frame } rfl hroom with
      ⟨a, ha, hvalue⟩ | ⟨stop, hs, hstop⟩
    · refine Or.inl ⟨a, ?_, hvalue⟩
      simp only [inFrame, hpush, ha, hpop]
    · refine Or.inr ⟨stop, ?_, hstop⟩
      simp only [inFrame, hpush, hs, hpop]
  · refine Or.inr ⟨_, ?_, hfull⟩
    simp only [inFrame, CallStack.push_of_le hd hge]

theorem Ends.perform {action : EvalM α} {evaluator : Evaluator}
    (h : action.Ends values stops (.new evaluator.config.maxCallDepth)) :
    (∃ a, (evaluator.perform action).1 = .ok a ∧ values a) ∨
      ∃ stop, (evaluator.perform action).1 = .error stop ∧ stops stop := by
  rcases h with ⟨a, ha, hvalue⟩ | ⟨stop, hs, hstop⟩
  · exact Or.inl ⟨a, by rw [Evaluator.perform, ha], hvalue⟩
  · exact Or.inr ⟨stop, by rw [Evaluator.perform, hs], hstop⟩

end EvalM

/-! ### Calls and what they find -/

namespace Document

variable {doc : Document} {enter : Environment → ExprId → EvalM Value} {env : Environment}
  {id : ExprId} {height : ℕ} {target : Option CallTarget} {args : List ExprId} {name : Name}
  {function : DefId} {definition : Definition}

/-- `call` is a call with these arguments, and its name stands for this function of the document. -/
def Calls (doc : Document) (env : Environment) (call : ExprId) (function : DefId)
    (definition : Definition) (args : List ExprId) : Prop :=
  ∃ target name, doc.exprs[call.index]? = some (.call target args) ∧
    target.bind doc.targetName? = some name ∧ env.lookup name = some (.function function) ∧
    doc.definitions[function.index]? = some definition

theorem Calls.definition_eq (h : doc.Calls env id function definition args) :
    doc.definitions[function.index]? = some definition := by
  obtain ⟨target, name, hexpr, hname, hb, hd⟩ := h
  exact hd

/-- What the name of a call may stand for. -/
theorem call_cases (env : Environment) (h : doc.exprs[id.index]? = some (.call target args)) :
    target.bind doc.targetName? = none ∨
      ∃ name, target.bind doc.targetName? = some name ∧
        (env.lookup name = none ∨ (∃ value, env.lookup name = some (.value value)) ∨
          ∃ function, env.lookup name = some (.function function) ∧
            (doc.definitions.size ≤ function.index ∨
              ∃ definition, doc.Calls env id function definition args)) := by
  cases hname : target.bind doc.targetName? with
  | none => exact Or.inl rfl
  | some name =>
    refine Or.inr ⟨name, rfl, ?_⟩
    cases hb : env.lookup name with
    | none => exact Or.inl rfl
    | some binding =>
      cases binding with
      | value value => exact Or.inr (Or.inl ⟨value, rfl⟩)
      | function function =>
        refine Or.inr (Or.inr ⟨function, rfl, ?_⟩)
        cases hd : doc.definitions[function.index]? with
        | none => exact Or.inl (Array.getElem?_eq_none_iff.1 hd)
        | some definition => exact Or.inr ⟨definition, target, name, h, hname, hb, hd⟩

theorem evalNode_of_size_le (h : doc.exprs.size ≤ id.index) :
    doc.evalNode enter (height + 1) env id =
      throw (.fault (.outOfRange doc.exprs.size id.index)) := by
  rw [evalNode, expr, fetch_eq_error.2 ⟨h, rfl⟩]
  rfl

theorem evalNode_of_unlinked (h : doc.exprs[id.index]? = some (.call target args))
    (hname : target.bind doc.targetName? = none) :
    doc.evalNode enter (height + 1) env id = throw (.error (.unlinkedReference id)) := by
  rw [evalNode_of_call h, evalCall_of_unlinked hname]
  rfl

theorem evalNode_of_unbound (h : doc.exprs[id.index]? = some (.call target args))
    (hname : target.bind doc.targetName? = some name) (hb : env.lookup name = none) :
    doc.evalNode enter (height + 1) env id = pure none := by
  rw [evalNode_of_call h, evalCall_of_unbound hname hb]

theorem evalNode_of_value {value : Value} (h : doc.exprs[id.index]? = some (.call target args))
    (hname : target.bind doc.targetName? = some name)
    (hb : env.lookup name = some (.value value)) :
    doc.evalNode enter (height + 1) env id = pure value := by
  rw [evalNode_of_call h, evalCall_of_value hname hb]

theorem evalNode_of_undefined (h : doc.exprs[id.index]? = some (.call target args))
    (hname : target.bind doc.targetName? = some name)
    (hb : env.lookup name = some (.function function))
    (hd : doc.definitions.size ≤ function.index) :
    doc.evalNode enter (height + 1) env id =
      throw (.fault (.outOfRange doc.definitions.size function.index)) := by
  rw [evalNode_of_call h]
  simp only [evalCall, hname, hb, Document.definition, fetch_eq_error.2 ⟨hd, rfl⟩]
  rfl

theorem evalNode_of_calls (h : doc.Calls env id function definition args)
    (harity : definition.arity = args.length) :
    doc.evalNode enter (height + 1) env id = (do
      let values ← args.mapM (doc.evalNode enter height env)
      EvalM.inFrame doc { definition := function, call := id }
        (enter (env.bindAll definition.params values) definition.body)) := by
  obtain ⟨target, name, hexpr, hname, hb, hd⟩ := h
  rw [evalNode_of_call hexpr, evalCall_of_function hname hb hd, if_pos harity]

theorem evalNode_of_arity (h : doc.Calls env id function definition args)
    (harity : definition.arity ≠ args.length) :
    doc.evalNode enter (height + 1) env id =
      throw (.error (.arityMismatch (doc.text definition.name) function id definition.arity
        args.length)) := by
  obtain ⟨target, name, hexpr, hname, hb, hd⟩ := h
  rw [evalNode_of_call hexpr, evalCall_of_function hname hb hd, if_neg harity]
  rfl

end Document

/-! ### Functions in an environment -/

namespace Environment

variable {env : Environment} {property : Name → DefId → Prop}

/-- Every function in the environment has the property, together with its name there. -/
def Functions (property : Name → DefId → Prop) (env : Environment) : Prop :=
  ∀ (name : Name) (id : DefId), env.lookup name = some (.function id) → property name id

theorem functions_empty (property : Name → DefId → Prop) : empty.Functions property := by
  intro name id h
  simp at h

theorem Functions.define {name : Name} {binding : Binding} (h : env.Functions property)
    (hb : ∀ id, binding = .function id → property name id) :
    (env.define name binding).Functions property := by
  intro other id hother
  rw [lookup_define] at hother
  split at hother
  · rename_i heq
    rw [← heq]
    exact hb id (Option.some.inj hother)
  · exact h other id hother

theorem Functions.define_value {name : Name} {value : Value} (h : env.Functions property) :
    (env.define name (.value value)).Functions property := by
  apply h.define
  intro id hid
  cases hid

/-- Parameters are bound to values, not to functions. -/
theorem Functions.bindAll (h : env.Functions property) (names : List Name) (values : List Value) :
    (env.bindAll names values).Functions property := by
  rw [Environment.bindAll]
  generalize names.zip values = pairs
  induction pairs generalizing env with
  | nil => exact h
  | cons pair pairs ih => exact ih h.define_value

end Environment

/-! ### Errors on record -/

deriving instance DecidableEq for Entry

/-- The index follows from the entries, so that it need not be compared. -/
instance : DecidableEq Results := fun a b =>
  decidable_of_iff (a.entries = b.entries ∧ a.failures = b.failures)
    ⟨fun h => Results.ext h.1 h.2, fun h => h ▸ ⟨rfl, rfl⟩⟩

/-- The error is that of an evaluation or of a variable. -/
def Results.Records (results : Results) (error : EvalError) : Prop :=
  (∃ entry ∈ results.entries, entry.outcome = .error error) ∨
    ∃ failure ∈ results.failures, failure.2 = error

theorem Results.not_records_empty (error : EvalError) : ¬ Results.empty.Records error := by
  simp [Records]

theorem Results.records_record {results : Results} {number : EvaluationId} {outcome : Outcome}
    {error : EvalError} :
    (results.record number outcome).Records error ↔
      results.Records error ∨ outcome = .error error := by
  simp only [Records, entries_record, failures_record, Array.mem_push]
  grind

theorem Results.records_recordFailure {results : Results} {number : DefId}
    {failure error : EvalError} :
    (results.recordFailure number failure).Records error ↔
      results.Records error ∨ failure = error := by
  simp only [Records, entries_recordFailure, failures_recordFailure, Array.mem_push]
  grind

/-- A run ends with the error, or has it on record. -/
def Evaluator.Reports (evaluator : Evaluator) (error : EvalError) : Prop :=
  evaluator.run.1 = .error (.error error) ∨
    ∃ results, evaluator.run.1 = .ok results ∧ results.Records error

/-! ### Contracts for expressions -/

/-- What an evaluation may assume, and the stops that it may come to. -/
structure Contract where
  env : Environment → Prop
  expr : ExprId → Prop
  stop : Stop → Prop

namespace Contract

/-- The assumptions are handed on, and every stop that can arise under them is allowed. The limit is
that of the stacks in question. -/
structure Sound (contract : Contract) (doc : Document) (limit : ℕ) : Prop where
  part : ∀ {whole part : ExprId}, contract.expr whole → doc.Child whole part → contract.expr part
  bindAll : ∀ {env : Environment} (names : List Name) (values : List Value), contract.env env →
    contract.env (env.bindAll names values)
  body : ∀ {env : Environment} {call : ExprId} {function : DefId} {definition : Definition}
    {args : List ExprId}, contract.env env → doc.Calls env call function definition args →
    contract.expr definition.body
  noExpr : ∀ {id : ExprId}, contract.expr id → doc.exprs.size ≤ id.index →
    contract.stop (.fault (.outOfRange doc.exprs.size id.index))
  noDefinition : ∀ {env : Environment} {name : Name} {function : DefId}, contract.env env →
    env.lookup name = some (.function function) → doc.definitions.size ≤ function.index →
    contract.stop (.fault (.outOfRange doc.definitions.size function.index))
  unlinked : ∀ {call : ExprId} {target : Option CallTarget} {args : List ExprId},
    contract.expr call → doc.exprs[call.index]? = some (.call target args) →
    target.bind doc.targetName? = none → contract.stop (.error (.unlinkedReference call))
  arity : ∀ {env : Environment} {call : ExprId} {function : DefId} {definition : Definition}
    {args : List ExprId}, contract.env env → contract.expr call →
    doc.Calls env call function definition args → definition.arity ≠ args.length →
    contract.stop (.error
      (.arityMismatch (doc.text definition.name) function call definition.arity args.length))
  full : ∀ {env : Environment} {call : ExprId} {function : DefId} {definition : Definition}
    {args : List ExprId}, contract.env env → contract.expr call →
    doc.Calls env call function definition args → definition.arity = args.length →
    contract.stop (.error (.recursionLimit (doc.text definition.name) call limit))
  /-- Where an expression contains itself, a walk down the expressions may have no end. -/
  endless : doc.Acyclic ∨ contract.stop (.fault .endless)

variable {contract : Contract} {doc : Document} {env : Environment} {id : ExprId}
  {stack : CallStack} {height room : ℕ}

/-- Bodies end as the contract says wherever a frame of the stack can be opened. -/
def Enters (contract : Contract) (enter : Environment → ExprId → EvalM Value)
    (stack : CallStack) : Prop :=
  ∀ (env : Environment) (body : ExprId) (inner : CallStack), contract.env env →
    contract.expr body → inner.limit = stack.limit → inner.room + 1 = stack.room →
    (enter env body).Ends (fun _ => True) contract.stop inner

theorem Sound.evalNode_of_call {enter : Environment → ExprId → EvalM Value}
    {target : Option CallTarget} {args : List ExprId} (h : contract.Sound doc stack.limit)
    (henv : contract.env env) (hid : contract.expr id)
    (hexpr : doc.exprs[id.index]? = some (.call target args))
    (hargs : ∀ arg ∈ args,
      (doc.evalNode enter height env arg).Ends (fun _ => True) contract.stop stack)
    (henter : contract.Enters enter stack) :
    (doc.evalNode enter (height + 1) env id).Ends (fun _ => True) contract.stop stack := by
  obtain hname | ⟨name, hname, hb | ⟨value, hb⟩ | ⟨function, hb, hd | ⟨definition, hcalls⟩⟩⟩ :=
    Document.call_cases env hexpr
  · rw [Document.evalNode_of_unlinked hexpr hname]
    exact EvalM.ends_throw (h.unlinked hid hexpr hname)
  · rw [Document.evalNode_of_unbound hexpr hname hb]
    exact EvalM.ends_pure trivial
  · rw [Document.evalNode_of_value hexpr hname hb]
    exact EvalM.ends_pure trivial
  · rw [Document.evalNode_of_undefined hexpr hname hb hd]
    exact EvalM.ends_throw (h.noDefinition henv hb hd)
  · by_cases harity : definition.arity = args.length
    · rw [Document.evalNode_of_calls hcalls harity]
      apply (EvalM.ends_mapM hargs).bind
      intro values _
      apply EvalM.ends_inFrame hcalls.definition_eq (h.full henv hid hcalls harity)
      intro inner hlimit hroom
      exact henter _ _ inner (h.bindAll _ values henv) (h.body henv hcalls) hlimit hroom
    · rw [Document.evalNode_of_arity hcalls harity]
      exact EvalM.ends_throw (h.arity henv hid hcalls harity)

/-- Within one frame. The height has to exceed the rank, where ranks mean anything. -/
theorem Sound.evalNode {enter : Environment → ExprId → EvalM Value}
    (h : contract.Sound doc stack.limit) (henv : contract.env env) (hid : contract.expr id)
    (henter : contract.Enters enter stack) (hrank : doc.Acyclic → doc.rank id < height) :
    (doc.evalNode enter height env id).Ends (fun _ => True) contract.stop stack := by
  induction height generalizing id with
  | zero =>
    -- the height is used up only where ranks mean nothing
    rcases h.endless with hacyclic | hstop
    · exact absurd (hrank hacyclic) (Nat.not_lt_zero _)
    · exact EvalM.ends_throw hstop
  | succ height ih =>
    have hpart : ∀ part, doc.Child id part →
        (doc.evalNode enter height env part).Ends (fun _ => True) contract.stop stack := by
      intro part hc
      apply ih (h.part hid hc)
      intro hacyclic
      have hlt := Document.rank_lt_of_child hc (hacyclic id)
      have hle := hrank hacyclic
      omega
    cases hexpr : doc.exprs[id.index]? with
    | none =>
      have hle : doc.exprs.size ≤ id.index := Array.getElem?_eq_none_iff.1 hexpr
      rw [Document.evalNode_of_size_le hle]
      exact EvalM.ends_throw (h.noExpr hid hle)
    | some expr =>
      cases expr with
      | number x =>
        rw [Document.evalNode_of_number hexpr]
        exact EvalM.ends_pure trivial
      | binary op left right =>
        rw [Document.evalNode_of_binary hexpr]
        apply (hpart left (Document.child_left hexpr)).bind
        intro x _
        apply (hpart right (Document.child_right hexpr)).bind
        intro y _
        exact EvalM.ends_pure trivial
      | call target args =>
        exact h.evalNode_of_call henv hid hexpr (fun arg harg => hpart arg ⟨_, hexpr, harg⟩) henter
      | error =>
        rw [Document.evalNode_of_error hexpr]
        exact EvalM.ends_pure trivial

theorem Sound.evalWithin (h : contract.Sound doc stack.limit) (henv : contract.env env)
    (hid : contract.expr id) (hroom : stack.room ≤ room) :
    (doc.evalWithin room env id).Ends (fun _ => True) contract.stop stack := by
  induction room generalizing env id stack with
  | zero =>
    apply h.evalNode henv hid _ fun _ => doc.rank_lt_height id
    -- no frame fits on a stack without room, so that no body is entered
    intro env body inner _ _ _ hinner
    omega
  | succ room ih =>
    apply h.evalNode henv hid _ fun _ => doc.rank_lt_height id
    intro env body inner henv hbody hlimit hinner
    rw [← hlimit] at h
    exact ih h henv hbody (by omega)

/-- **An evaluation keeps a sound contract.** -/
theorem Sound.evalExpr (h : contract.Sound doc stack.limit) (henv : contract.env env)
    (hid : contract.expr id) :
    (doc.evalExpr env id).Ends (fun _ => True) contract.stop stack :=
  h.evalWithin henv hid (Nat.le_refl stack.room)

/-- By itself, with no name bound. -/
theorem Sound.evalDetached {evaluator : Evaluator}
    (h : contract.Sound evaluator.document evaluator.config.maxCallDepth)
    (henv : contract.env .empty) (hid : contract.expr id) :
    (∃ value, (evaluator.evalDetached id).1 = .ok value) ∨
      ∃ stop, (evaluator.evalDetached id).1 = .error stop ∧ contract.stop stop := by
  have hends : (evaluator.document.evalExpr .empty id).Ends (fun _ => True) contract.stop
      (.new evaluator.config.maxCallDepth) := h.evalExpr henv hid
  rcases hends.perform with ⟨value, hvalue, -⟩ | hstop
  · exact Or.inl ⟨value, hvalue⟩
  · exact Or.inr hstop

/-! ### Contracts for statements -/

/-- The statements of the document meet the assumptions of the contract. -/
structure Covers (contract : Contract) (doc : Document) : Prop where
  start : contract.env .empty
  root : ∀ {statement : Statement} {id : ExprId}, statement ∈ doc.statements →
    doc.root? statement = some id → contract.expr id
  function : ∀ {env : Environment} {number : DefId} {definition : Definition}, contract.env env →
    .definition number ∈ doc.statements → doc.definitions[number.index]? = some definition →
    definition.isFunction = true → contract.env (env.define definition.name (.function number))
  value : ∀ {env : Environment} (name : Name) (value : Value), contract.env env →
    contract.env (env.define name (.value value))
  noStatement : ∀ {statement : Statement} {size index : ℕ}, statement ∈ doc.statements →
    ¬ doc.HasStatement statement → contract.stop (.fault (.outOfRange size index))

/-- The environment of a pass is as assumed, and its errors are allowed. -/
def Holds (contract : Contract) (pass : Pass) : Prop :=
  contract.env pass.env ∧ ∀ error, pass.results.Records error → contract.stop (.error error)

variable {policy : ErrorPolicy} {pass : Pass}

theorem Holds.define {name : Name} {binding : Binding} (h : contract.Holds pass)
    (henv : contract.env (pass.env.define name binding)) :
    contract.Holds { pass with env := pass.env.define name binding } :=
  ⟨henv, h.2⟩

theorem Holds.record {outcome : Outcome} (h : contract.Holds pass) (number : EvaluationId)
    (hstop : ∀ error, outcome = .error error → contract.stop (.error error)) :
    contract.Holds { pass with results := pass.results.record number outcome } := by
  refine ⟨h.1, ?_⟩
  intro error hrecords
  rcases Results.records_record.1 hrecords with hbefore | houtcome
  · exact h.2 error hbefore
  · exact hstop error houtcome

theorem Holds.recordFailure {error : EvalError} (h : contract.Holds pass) (number : DefId)
    (hstop : contract.stop (.error error)) :
    contract.Holds { pass with results := pass.results.recordFailure number error } := by
  refine ⟨h.1, ?_⟩
  intro other hrecords
  rcases Results.records_recordFailure.1 hrecords with hbefore | rfl
  · exact h.2 other hbefore
  · exact hstop

theorem ends_policy {error : EvalError} (policy : ErrorPolicy) (h : contract.stop (.error error)) :
    ( policy.admit error).Ends (fun _ => True) contract.stop stack := by
  cases policy with
  | abortPass => exact EvalM.ends_throw h
  | perEvaluation => exact EvalM.ends_pure trivial

theorem Covers.runStatement_definition {number : DefId} (h : contract.Covers doc)
    (hs : contract.Sound doc stack.limit) (hpass : contract.Holds pass)
    (hmem : .definition number ∈ doc.statements) :
    (doc.runStatement policy pass (.definition number)).Ends contract.Holds contract.stop stack := by
  rw [Document.runStatement]
  cases hd : doc.definitions[number.index]? with
  | none =>
    have hle : doc.definitions.size ≤ number.index := Array.getElem?_eq_none_iff.1 hd
    rw [Document.definition, fetch_eq_error.2 ⟨hle, rfl⟩]
    exact EvalM.ends_throw (h.noStatement hmem (Nat.not_lt.2 hle))
  | some definition =>
    rw [Document.definition_eq_ok.2 hd]
    show (if definition.isFunction = true then _ else _ : EvalM Pass).Ends _ _ stack
    by_cases hf : definition.isFunction = true
    · rw [if_pos hf]
      exact EvalM.ends_pure (hpass.define (h.function hpass.1 hmem hd hf))
    · rw [if_neg hf]
      have hroot : doc.root? (.definition number) = some definition.body := by
        rw [Document.root?, hd]
        rfl
      apply (hs.evalExpr hpass.1 (h.root hmem hroot)).attempt.bind
      rintro _ (⟨value, rfl, -⟩ | ⟨error, rfl, hstop⟩)
      · exact EvalM.ends_pure (hpass.define (h.value _ value hpass.1))
      · apply (ends_policy policy hstop).bind
        intro _ _
        exact EvalM.ends_pure ((hpass.define (h.value _ none hpass.1)).recordFailure number hstop)

theorem Covers.runStatement_evaluation {number : EvaluationId} (h : contract.Covers doc)
    (hs : contract.Sound doc stack.limit) (hpass : contract.Holds pass)
    (hmem : .evaluation number ∈ doc.statements) :
    (doc.runStatement policy pass (.evaluation number)).Ends contract.Holds contract.stop stack := by
  rw [Document.runStatement]
  cases he : doc.evaluations[number.index]? with
  | none =>
    have hle : doc.evaluations.size ≤ number.index := Array.getElem?_eq_none_iff.1 he
    rw [Document.evaluation, fetch_eq_error.2 ⟨hle, rfl⟩]
    exact EvalM.ends_throw (h.noStatement hmem (Nat.not_lt.2 hle))
  | some evaluation =>
    rw [Document.evaluation_eq_ok.2 he]
    have hroot : doc.root? (.evaluation number) = some evaluation.expr := by
      rw [Document.root?, he]
      rfl
    apply (hs.evalExpr hpass.1 (h.root hmem hroot)).attempt.bind
    rintro _ (⟨value, rfl, -⟩ | ⟨error, rfl, hstop⟩)
    · apply EvalM.ends_pure
      apply hpass.record number
      rintro error ⟨⟩
    · apply (ends_policy policy hstop).bind
      intro _ _
      apply EvalM.ends_pure
      apply hpass.record number
      rintro _ ⟨⟩
      exact hstop

/-- Statements in order keep the contract. -/
theorem Covers.foldlM {statements : List Statement} (h : contract.Covers doc)
    (hs : contract.Sound doc stack.limit) (hmem : ∀ statement ∈ statements, statement ∈ doc.statements)
    (hpass : contract.Holds pass) :
    (statements.foldlM (doc.runStatement policy) pass).Ends contract.Holds contract.stop stack := by
  refine EvalM.ends_foldlM ?_ hpass
  intro statement hstatement pass hpass
  have hin := hmem statement hstatement
  cases statement with
  | definition number => exact h.runStatement_definition hs hpass hin
  | evaluation number => exact h.runStatement_evaluation hs hpass hin

theorem Covers.holds_start (h : contract.Covers doc) : contract.Holds {} :=
  ⟨h.start, fun error hrecords => absurd hrecords (Results.not_records_empty error)⟩

/-- **A run keeps a sound contract.** -/
theorem Covers.run {evaluator : Evaluator} (h : contract.Covers evaluator.document)
    (hs : contract.Sound evaluator.document evaluator.config.maxCallDepth) :
    (∃ pass, evaluator.run.1 = .ok pass.results ∧ contract.Holds pass) ∨
      ∃ stop, evaluator.run.1 = .error stop ∧ contract.stop stop := by
  have hpass : (evaluator.document.runPass evaluator.config.errorPolicy).Ends contract.Holds
      contract.stop (.new evaluator.config.maxCallDepth) :=
    h.foldlM hs (fun _ hmem => Array.mem_toList_iff.1 hmem) h.holds_start
  have hresults : (Pass.results <$> evaluator.document.runPass evaluator.config.errorPolicy).Ends
      _ _ _ := hpass.map
  rcases hresults.perform with ⟨_, hrun, pass, hholds, rfl⟩ | hstop
  · exact Or.inl ⟨pass, hrun, hholds⟩
  · exact Or.inr hstop

theorem Covers.exists_results {evaluator : Evaluator} (h : contract.Covers evaluator.document)
    (hs : contract.Sound evaluator.document evaluator.config.maxCallDepth) :
    (∃ results, evaluator.run.1 = .ok results) ∨
      ∃ stop, evaluator.run.1 = .error stop ∧ contract.stop stop := by
  rcases h.run hs with ⟨pass, hrun, -⟩ | hstop
  · exact Or.inl ⟨pass.results, hrun⟩
  · exact Or.inr hstop

theorem Covers.stop_of_reports {evaluator : Evaluator} {error : EvalError}
    (h : contract.Covers evaluator.document)
    (hs : contract.Sound evaluator.document evaluator.config.maxCallDepth)
    (hr : evaluator.Reports error) : contract.stop (.error error) := by
  rcases h.run hs with ⟨pass, hrun, hholds⟩ | ⟨stop, hrun, hstop⟩
  · rcases hr with herror | ⟨results, hresults, hrecords⟩
    · rw [hrun] at herror
      cases herror
    · rw [hrun] at hresults
      cases hresults
      exact hholds.2 error hrecords
  · rcases hr with herror | ⟨results, hresults, -⟩
    · rw [hrun] at herror
      cases herror
      exact hstop
    · rw [hrun] at hresults
      cases hresults

end Contract

end Reckon
