import Reckon.Proofs.Balance
import Reckon.Proofs.ErrorReports

/-!
# What a statement does

A pass takes its statements one after the other, and each of them binds a name, adds to the results,
or does both. This file says once what that is, in terms of the outcome of the expression at the
statement, and takes a pass apart accordingly.

* `Document.Yields`: an expression comes to an outcome.
* `Document.Computes`: a statement comes to an outcome. Where a function is defined nothing is computed.
* `Document.settle`: the pass after a statement with this outcome.
* `Document.Runs`: a pass over a list of statements, one outcome after the other. It is what
  `Document.runList` comes to (`runs_iff`).
* `Runs.split`: a pass has gone through every earlier point, and the rest only adds to the results.
* `Document.Fails`, `fails_of_reports`: every error of a run is the outcome of one of its statements.
-/

namespace Reckon

/-- A pass goes on after this outcome. -/
def ErrorPolicy.Admits (policy : ErrorPolicy) (outcome : Outcome) : Prop :=
  policy = .abortPass → ∃ value, outcome = .ok value

theorem ErrorPolicy.admits_perEvaluation (outcome : Outcome) : ErrorPolicy.perEvaluation.Admits outcome :=
  nofun

theorem ErrorPolicy.admits_ok (policy : ErrorPolicy) (value : Value) : policy.Admits (.ok value) :=
  fun _ => ⟨value, rfl⟩

/-- Only ending the pass is a reason not to go on, and only after an error. -/
theorem ErrorPolicy.of_not_admits {policy : ErrorPolicy} {outcome : Outcome}
    (h : ¬ policy.Admits outcome) : policy = .abortPass ∧ ∃ error, outcome = .error error := by
  cases policy with
  | perEvaluation => exact absurd (ErrorPolicy.admits_perEvaluation outcome) h
  | abortPass =>
    cases outcome with
    | ok value => exact absurd (ErrorPolicy.admits_ok _ value) h
    | error error => exact ⟨rfl, error, rfl⟩

namespace Results

variable {results : Results} {statement : Statement} {outcome : Outcome}

/-- Adds the outcome of a statement. The value of a variable is not among the results. -/
def settle (results : Results) : Statement → Outcome → Results
  | statement, .error error => results.recordError statement error
  | .evaluation number, .ok value => results.record number (.ok value)
  | .definition _, .ok _ => results

theorem settle_evaluation (results : Results) (number : EvaluationId) (outcome : Outcome) :
    results.settle (.evaluation number) outcome = results.record number outcome := by
  cases outcome <;> rfl

theorem extends_settle (results : Results) (statement : Statement) (outcome : Outcome) :
    (results.settle statement outcome).Extends results := by
  cases outcome with
  | error error => exact results.extends_recordError statement error
  | ok value =>
    cases statement with
    | evaluation number => exact results.extends_record number _
    | definition number => exact Extends.refl results

theorem records_settle {error : EvalError} :
    (results.settle statement outcome).Records error ↔
      results.Records error ∨ outcome = .error error := by
  cases statement with
  | evaluation number => rw [settle_evaluation, records_record]
  | definition number =>
    cases outcome with
    | ok value => simp [settle]
    | error failure => simp [settle, recordError, records_recordFailure]

end Results

namespace Document

variable {doc : Document} {policy : ErrorPolicy} {stack next : CallStack} {env : Environment}
  {id : ExprId} {statement : Statement} {outcome : Outcome} {pass : Pass}

/-! ### Outcomes -/

/-- The expression comes to the outcome, on a stack that it leaves as it was. -/
def Yields (doc : Document) (stack : CallStack) (env : Environment) (id : ExprId)
    (outcome : Outcome) : Prop :=
  EvalM.attempt (doc.evalExpr env id) stack = .ok outcome stack

theorem Yields.unique {other : Outcome} (h : doc.Yields stack env id outcome)
    (h' : doc.Yields stack env id other) : outcome = other := by
  have heq := Eq.trans (Eq.symm h) h'
  injection heq

theorem yields_ok {value : Value} (h : doc.evalExpr env id stack = .ok value stack) :
    doc.Yields stack env id (.ok value) := by
  rw [Yields, EvalM.attempt, h]

theorem yields_error {error : EvalError}
    (h : doc.evalExpr env id stack = .error (.error error) stack) :
    doc.Yields stack env id (.error error) := by
  rw [Yields, EvalM.attempt, h]

theorem Yields.evalExpr_of_error {error : EvalError} (h : doc.Yields stack env id (.error error)) :
    doc.evalExpr env id stack = .error (.error error) stack := by
  obtain ⟨value, hvalue, -⟩ | ⟨stop, hstop, -⟩ := doc.evalExpr_ends env id stack
  · have heq := h.unique (yields_ok hvalue)
    cases heq
  · rw [Yields, EvalM.attempt, hstop] at h
    cases stop with
    | error other =>
      cases h
      exact hstop
    | fault fault => cases h

theorem yields_or_fault (doc : Document) (stack : CallStack) (env : Environment) (id : ExprId) :
    (∃ outcome, doc.Yields stack env id outcome) ∨
      ∃ fault, EvalM.attempt (doc.evalExpr env id) stack = .error (.fault fault) stack := by
  obtain ⟨value, hvalue, -⟩ | ⟨stop, hstop, -⟩ := doc.evalExpr_ends env id stack
  · exact Or.inl ⟨_, yields_ok hvalue⟩
  · cases stop with
    | error error => exact Or.inl ⟨_, yields_error hstop⟩
    | fault fault => exact Or.inr ⟨fault, by rw [EvalM.attempt, hstop]⟩

theorem exists_yields (h : doc.WellFormed) (hk : env.Known doc) (hid : id.index < doc.exprs.size)
    (stack : CallStack) : ∃ outcome, doc.Yields stack env id outcome :=
  (evalExpr_answers h hk hid stack).attempt

/-- A statement comes to an outcome, in an environment and on a stack that is left as it was. -/
inductive Computes (doc : Document) (stack : CallStack) (env : Environment) :
    Statement → Outcome → Prop
  /-- The body of a function is left alone. -/
  | function {number : DefId} {definition : Definition}
      (hd : doc.definitions[number.index]? = some definition)
      (hf : definition.isFunction = true) : Computes doc stack env (.definition number) (.ok none)
  | assignment {number : DefId} {definition : Definition} {outcome : Outcome}
      (hd : doc.definitions[number.index]? = some definition)
      (hf : definition.isFunction = false)
      (hy : doc.Yields stack env definition.body outcome) :
      Computes doc stack env (.definition number) outcome
  | evaluation {number : EvaluationId} {evaluation : Evaluation} {outcome : Outcome}
      (he : doc.evaluations[number.index]? = some evaluation)
      (hy : doc.Yields stack env evaluation.expr outcome) :
      Computes doc stack env (.evaluation number) outcome

/-- The environment after a statement with this outcome. -/
def settleEnv (doc : Document) (env : Environment) : Statement → Outcome → Environment
  | .evaluation _, _ => env
  | .definition number, outcome =>
    match doc.definitions[number.index]? with
    | none => env
    | some definition =>
      env.define definition.name
        (if definition.isFunction then .function number else .value outcome.value)

/-- The pass after a statement with this outcome. -/
def settle (doc : Document) (pass : Pass) (statement : Statement) (outcome : Outcome) : Pass where
  env := doc.settleEnv pass.env statement outcome
  results := pass.results.settle statement outcome

theorem settleEnv_of_definition {number : DefId} {definition : Definition}
    (hd : doc.definitions[number.index]? = some definition) :
    doc.settleEnv env (.definition number) outcome =
      env.define definition.name
        (if definition.isFunction then .function number else .value outcome.value) := by
  rw [settleEnv, hd]

/-! ### One statement -/

theorem runStatement_of_admits (h : doc.Computes stack pass.env statement outcome)
    (ha : policy.Admits outcome) :
    doc.runStatement policy pass statement stack =
      .ok (doc.settle pass statement outcome) stack := by
  cases h with
  | function hd hf =>
    rw [runStatement_of_function hd hf, settle, settleEnv_of_definition hd, if_pos hf]
    rfl
  | assignment hd hf hy =>
    rw [settle, settleEnv_of_definition hd, hf]
    cases outcome with
    | ok value => exact runStatement_of_variable hd hf hy
    | error error =>
      rw [runStatement_of_failed_variable hd hf hy]
      cases policy with
      | perEvaluation => rfl
      | abortPass =>
        obtain ⟨value, hvalue⟩ := ha rfl
        cases hvalue
  | evaluation he hy =>
    rw [settle, Results.settle_evaluation]
    cases outcome with
    | ok value => exact runStatement_of_evaluation he hy
    | error error =>
      rw [runStatement_of_failed_evaluation he hy]
      cases policy with
      | perEvaluation => rfl
      | abortPass =>
        obtain ⟨value, hvalue⟩ := ha rfl
        cases hvalue

theorem runStatement_of_failed {error : EvalError}
    (h : doc.Computes stack pass.env statement (.error error)) :
    doc.runStatement .abortPass pass statement stack = .error (.error error) stack := by
  cases h with
  | assignment hd hf hy => rw [runStatement_of_failed_variable hd hf hy]
  | evaluation he hy => rw [runStatement_of_failed_evaluation he hy]

/-- A statement comes to an outcome, unless there is a fault. -/
theorem computes_or_fault (doc : Document) (policy : ErrorPolicy) (pass : Pass)
    (statement : Statement) (stack : CallStack) :
    (∃ outcome, doc.Computes stack pass.env statement outcome) ∨
      ∃ fault, doc.runStatement policy pass statement stack = .error (.fault fault) stack := by
  cases statement with
  | definition number =>
    cases hd : doc.definitions[number.index]? with
    | none =>
      have hle : doc.definitions.size ≤ number.index := Array.getElem?_eq_none_iff.1 hd
      refine Or.inr ⟨.outOfRange doc.definitions.size number.index, ?_⟩
      rw [runStatement, Document.definition, fetch_eq_error.2 ⟨hle, rfl⟩]
      rfl
    | some definition =>
      cases hf : definition.isFunction with
      | true => exact Or.inl ⟨_, .function hd hf⟩
      | false =>
        obtain ⟨outcome, hy⟩ | ⟨fault, hfault⟩ :=
          doc.yields_or_fault stack pass.env definition.body
        · exact Or.inl ⟨outcome, .assignment hd hf hy⟩
        · refine Or.inr ⟨fault, ?_⟩
          rw [runStatement, definition_eq_ok.2 hd]
          show (if definition.isFunction = true then _ else _ : EvalM Pass) stack = _
          rw [if_neg (by simp [hf])]
          simp only [bind, EStateM.bind, hfault]
  | evaluation number =>
    cases he : doc.evaluations[number.index]? with
    | none =>
      have hle : doc.evaluations.size ≤ number.index := Array.getElem?_eq_none_iff.1 he
      refine Or.inr ⟨.outOfRange doc.evaluations.size number.index, ?_⟩
      rw [runStatement, Document.evaluation, fetch_eq_error.2 ⟨hle, rfl⟩]
      rfl
    | some evaluation =>
      obtain ⟨outcome, hy⟩ | ⟨fault, hfault⟩ := doc.yields_or_fault stack pass.env evaluation.expr
      · exact Or.inl ⟨outcome, .evaluation he hy⟩
      · refine Or.inr ⟨fault, ?_⟩
        rw [runStatement, evaluation_eq_ok.2 he]
        show (EvalM.attempt (doc.evalExpr pass.env evaluation.expr) >>= _ : EvalM Pass) stack = _
        simp only [bind, EStateM.bind, hfault]

/-- **What a statement does that gets through.** -/
theorem exists_computes_of_ok {later : Pass}
    (h : doc.runStatement policy pass statement stack = .ok later next) :
    next = stack ∧ ∃ outcome, doc.Computes stack pass.env statement outcome ∧
      policy.Admits outcome ∧ later = doc.settle pass statement outcome := by
  obtain ⟨outcome, hc⟩ | ⟨fault, hfault⟩ := doc.computes_or_fault policy pass statement stack
  · by_cases ha : policy.Admits outcome
    · rw [runStatement_of_admits hc ha] at h
      cases h
      exact ⟨rfl, outcome, hc, ha, rfl⟩
    · obtain ⟨rfl, error, rfl⟩ := ErrorPolicy.of_not_admits ha
      rw [runStatement_of_failed hc] at h
      cases h
  · rw [hfault] at h
    cases h

/-- A statement that ends the pass with an error has come to this error. -/
theorem computes_of_error {error : EvalError}
    (h : doc.runStatement policy pass statement stack = .error (.error error) next) :
    doc.Computes stack pass.env statement (.error error) := by
  obtain ⟨outcome, hc⟩ | ⟨fault, hfault⟩ := doc.computes_or_fault policy pass statement stack
  · by_cases ha : policy.Admits outcome
    · rw [runStatement_of_admits hc ha] at h
      cases h
    · obtain ⟨rfl, failure, rfl⟩ := ErrorPolicy.of_not_admits ha
      rw [runStatement_of_failed hc] at h
      cases h
      exact hc
  · rw [hfault] at h
    cases h

/-! ### Lists of statements -/

/-- The statements can be processed in order, from nothing up to this pass. -/
inductive Runs (doc : Document) (policy : ErrorPolicy) (stack : CallStack) :
    List Statement → Pass → Prop
  | nil : Runs doc policy stack [] {}
  | concat {statements : List Statement} {earlier : Pass} {statement : Statement}
      {outcome : Outcome} (h : Runs doc policy stack statements earlier)
      (hc : doc.Computes stack earlier.env statement outcome) (ha : policy.Admits outcome) :
      Runs doc policy stack (statements ++ [statement]) (doc.settle earlier statement outcome)

variable {statements before after : List Statement}

theorem Runs.runList (h : doc.Runs policy stack statements pass) :
    doc.runList policy statements stack = .ok pass stack := by
  induction h with
  | nil => rfl
  | concat _ hc ha ih => rw [runList_concat_of_ok ih, runStatement_of_admits hc ha]

/-- The last statement ends a pass over the others, which got through or did not. -/
theorem runList_concat (doc : Document) (policy : ErrorPolicy) (statements : List Statement)
    (statement : Statement) (stack : CallStack) :
    doc.runList policy (statements ++ [statement]) stack =
      match doc.runList policy statements stack with
      | .ok pass next => doc.runStatement policy pass statement next
      | .error stop next => .error stop next := by
  rw [Document.runList, Document.runList, List.foldlM_append]
  simp only [bind, EStateM.bind, List.foldlM_cons, List.foldlM_nil]
  cases statements.foldlM (doc.runStatement policy) {} stack with
  | error stop next => rfl
  | ok pass next =>
    dsimp only
    cases doc.runStatement policy pass statement next <;> rfl

theorem runs_of_runList (h : doc.runList policy statements stack = .ok pass next) :
    next = stack ∧ doc.Runs policy stack statements pass := by
  induction statements using List.reverseRecOn generalizing pass next with
  | nil =>
    cases h
    exact ⟨rfl, .nil⟩
  | append_singleton statements statement ih =>
    rw [runList_concat] at h
    cases hearlier : doc.runList policy statements stack with
    | error stop middle =>
      rw [hearlier] at h
      cases h
    | ok earlier middle =>
      rw [hearlier] at h
      obtain ⟨rfl, hruns⟩ := ih hearlier
      obtain ⟨rfl, outcome, hc, ha, rfl⟩ := exists_computes_of_ok h
      exact ⟨rfl, hruns.concat hc ha⟩

/-- **A pass over a list of statements is one outcome after the other.** -/
theorem runs_iff :
    doc.Runs policy stack statements pass ↔ doc.runList policy statements stack = .ok pass stack :=
  ⟨Runs.runList, fun h => (runs_of_runList h).2⟩

theorem Runs.unique {other : Pass} (h : doc.Runs policy stack statements pass)
    (h' : doc.Runs policy stack statements other) : pass = other := by
  have heq := Eq.trans (Eq.symm h.runList) h'.runList
  injection heq

theorem Runs.exists_last (h : doc.Runs policy stack (statements ++ [statement]) pass) :
    ∃ earlier outcome, doc.Runs policy stack statements earlier ∧
      doc.Computes stack earlier.env statement outcome ∧ policy.Admits outcome ∧
      pass = doc.settle earlier statement outcome := by
  generalize hlist : statements ++ [statement] = list at h
  cases h with
  | nil => simp at hlist
  | concat hruns hc ha =>
    obtain ⟨rfl, hlast⟩ := List.append_inj' hlist rfl
    cases hlast
    exact ⟨_, _, hruns, hc, ha, rfl⟩

/-- **A pass has gone through every earlier point**, and since then it has only added to the
results. -/
theorem Runs.split (h : doc.Runs policy stack (before ++ after) pass) :
    ∃ earlier, doc.Runs policy stack before earlier ∧ pass.results.Extends earlier.results := by
  induction after using List.reverseRecOn generalizing pass with
  | nil =>
    rw [List.append_nil] at h
    exact ⟨pass, h, Results.Extends.refl _⟩
  | append_singleton after statement ih =>
    rw [← List.append_assoc] at h
    obtain ⟨middle, outcome, hmiddle, -, -, rfl⟩ := h.exists_last
    obtain ⟨earlier, hearlier, hextends⟩ := ih hmiddle
    exact ⟨earlier, hearlier, (Results.extends_settle _ statement outcome).trans hextends⟩

theorem mem_statements_of_split (h : doc.statements.toList = before ++ after) :
    (∀ statement ∈ before, statement ∈ doc.statements) ∧
      ∀ statement ∈ after, statement ∈ doc.statements := by
  constructor
  · intro statement hs
    rw [← Array.mem_toList_iff, h]
    exact List.mem_append_left _ hs
  · intro statement hs
    rw [← Array.mem_toList_iff, h]
    exact List.mem_append_right _ hs

/-- Where errors are recorded, nothing ends a pass. -/
theorem exists_runs (h : doc.WellFormed) (stack : CallStack)
    (hmem : ∀ statement ∈ statements, statement ∈ doc.statements) :
    ∃ pass, doc.Runs .perEvaluation stack statements pass := by
  obtain ⟨pass, hrun, -⟩ := exists_parallel_run h stack statements fun statement hs =>
    h.hasStatement statement (hmem statement hs)
  exact ⟨pass, (runs_of_runList hrun).2⟩

/-- A pass binds functions to the names that statements give them. -/
theorem Runs.introduced (h : doc.Runs policy stack statements pass)
    (hmem : ∀ statement ∈ statements, statement ∈ doc.statements) :
    pass.env.Functions doc.Introduces := by
  induction h with
  | nil => exact Environment.functions_empty _
  | @concat statements earlier statement outcome _ hc _ ih =>
    have henv := ih fun s hs => hmem s (List.mem_append_left _ hs)
    have hlast := hmem statement (List.mem_append_right _ (List.mem_singleton_self statement))
    cases hc with
    | evaluation he hy => exact henv
    | function hd hf =>
      rw [settle, settleEnv_of_definition hd, if_pos hf]
      apply henv.define
      intro number hnumber
      cases hnumber
      exact ⟨hlast, _, hd, rfl, hf⟩
    | assignment hd hf hy =>
      rw [settle, settleEnv_of_definition hd, hf]
      exact henv.define_value

/-- Functions that statements introduce are definitions of the document. -/
theorem known_of_introduces (h : env.Functions doc.Introduces) : env.Known doc := by
  intro name number hlookup
  obtain ⟨-, definition, hd, -, -⟩ := h name number hlookup
  exact (Array.getElem?_eq_some_iff.1 hd).1

theorem Runs.known (h : doc.Runs policy stack statements pass)
    (hmem : ∀ statement ∈ statements, statement ∈ doc.statements) : pass.env.Known doc :=
  known_of_introduces (h.introduced hmem)

/-! ### Errors -/

/-- One of the statements comes to the error, after those before it have been processed. -/
def Fails (doc : Document) (policy : ErrorPolicy) (stack : CallStack)
    (statements : List Statement) (error : EvalError) : Prop :=
  ∃ before statement after earlier, statements = before ++ statement :: after ∧
    doc.Runs policy stack before earlier ∧
    doc.Computes stack earlier.env statement (.error error)

theorem fails_concat {earlier : Pass} {error : EvalError}
    (h : doc.Runs policy stack statements earlier)
    (hc : doc.Computes stack earlier.env statement (.error error)) :
    doc.Fails policy stack (statements ++ [statement]) error :=
  ⟨statements, statement, [], earlier, rfl, h, hc⟩

theorem Fails.concat {error : EvalError} (h : doc.Fails policy stack statements error)
    (statement : Statement) : doc.Fails policy stack (statements ++ [statement]) error := by
  obtain ⟨before, failing, after, earlier, rfl, hruns, hc⟩ := h
  refine ⟨before, failing, after ++ [statement], earlier, ?_, hruns, hc⟩
  rw [List.append_assoc, List.cons_append]

theorem Runs.fails_of_records {error : EvalError} (h : doc.Runs policy stack statements pass)
    (hr : pass.results.Records error) : doc.Fails policy stack statements error := by
  induction h with
  | nil => exact absurd hr (Results.not_records_empty error)
  | @concat statements earlier statement outcome hruns hc _ ih =>
    rcases Results.records_settle.1 hr with hbefore | rfl
    · exact (ih hbefore).concat statement
    · exact fails_concat hruns hc

theorem fails_of_error {error : EvalError}
    (h : doc.runList policy statements stack = .error (.error error) next) :
    doc.Fails policy stack statements error := by
  induction statements using List.reverseRecOn generalizing next with
  | nil => cases h
  | append_singleton statements statement ih =>
    rw [runList_concat] at h
    cases hearlier : doc.runList policy statements stack with
    | error stop middle =>
      rw [hearlier] at h
      cases h
      exact (ih hearlier).concat statement
    | ok earlier middle =>
      rw [hearlier] at h
      obtain ⟨rfl, hruns⟩ := runs_of_runList hearlier
      exact fails_concat hruns (computes_of_error h)

/-- A pass that ends with its first error has none on record. -/
theorem Runs.not_records (h : doc.Runs .abortPass stack statements pass) (error : EvalError) :
    ¬ pass.results.Records error := by
  induction h with
  | nil => exact Results.not_records_empty error
  | concat _ _ ha ih =>
    obtain ⟨value, rfl⟩ := ha rfl
    intro hr
    rcases Results.records_settle.1 hr with hbefore | heq
    · exact ih hbefore
    · cases heq

/-- The first statement that fails ends the pass, whatever comes after it. -/
theorem Fails.runList {error : EvalError} (h : doc.Fails .abortPass stack statements error) :
    doc.runList .abortPass statements stack = .error (.error error) stack := by
  obtain ⟨before, statement, after, earlier, rfl, hruns, hc⟩ := h
  have hfailing : doc.runList .abortPass (before ++ [statement]) stack =
      .error (.error error) stack := by
    rw [runList_concat_of_ok hruns.runList, runStatement_of_failed hc]
  rw [← List.singleton_append, ← List.append_assoc]
  induction after using List.reverseRecOn with
  | nil => rwa [List.append_nil]
  | append_singleton after last ih =>
    rw [← List.append_assoc]
    exact runList_concat_of_error ih last

/-! ### Runs of a document -/

theorem run_eq_ok {depth : ℕ} {results : Results} :
    (Evaluator.new doc { maxCallDepth := depth, errorPolicy := policy }).run.1 = .ok results ↔
      ∃ pass, doc.Runs policy (.new depth) doc.statements.toList pass ∧ pass.results = results := by
  constructor
  · intro h
    cases hrun : doc.runList policy doc.statements.toList (.new depth) with
    | error stop next =>
      rw [run_of_error hrun] at h
      cases h
    | ok pass next =>
      rw [run_of_ok hrun] at h
      cases h
      exact ⟨pass, (runs_of_runList hrun).2, rfl⟩
  · intro h
    obtain ⟨pass, hruns, rfl⟩ := h
    exact run_of_ok hruns.runList

theorem run_eq_error {depth : ℕ} {stop : Stop} :
    (Evaluator.new doc { maxCallDepth := depth, errorPolicy := policy }).run.1 = .error stop ↔
      ∃ next, doc.runList policy doc.statements.toList (.new depth) = .error stop next := by
  cases hrun : doc.runList policy doc.statements.toList (.new depth) with
  | ok pass next => simp [run_of_ok hrun]
  | error other next => simp [run_of_error hrun]

end Document

/-- **Every error of a run is the outcome of a statement.** -/
theorem Evaluator.fails_of_reports {evaluator : Evaluator} {error : EvalError}
    (h : evaluator.Reports error) :
    evaluator.document.Fails evaluator.config.errorPolicy (.new evaluator.config.maxCallDepth)
      evaluator.document.statements.toList error := by
  have hnew : evaluator.run.1 = (Evaluator.new evaluator.document
      { maxCallDepth := evaluator.config.maxCallDepth
        errorPolicy := evaluator.config.errorPolicy }).run.1 := evaluator.perform_new _
  rw [Evaluator.Reports, hnew] at h
  rcases h with herror | ⟨results, hresults, hrecords⟩
  · obtain ⟨next, hrun⟩ := Document.run_eq_error.1 herror
    exact Document.fails_of_error hrun
  · obtain ⟨pass, hruns, rfl⟩ := Document.run_eq_ok.1 hresults
    exact hruns.fails_of_records hrecords

end Reckon
