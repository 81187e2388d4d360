import Reckon.Proofs.Evaluation

/-!
# The two error policies

A pass that goes on after an error and a pass that ends with it process the same statements, but
after the first error only one of them is left to compare. This file follows both side by side.

* `Results.Extends`, `Results.recordError`: what a pass adds to its results.
* `Document.Processed`: what one statement does under the two policies, from the same pass.
* `exists_processed`: in a well-formed document every statement does that.
* `Document.FirstError`: an error that results hold for the earliest statement that failed.
* `Document.AbortsLike`: how the pass that may have ended compares with the one that went on. One more
  statement keeps it (`AbortsLike.concat`).
* `exists_parallel_run`: a list of statements, by induction from `exists_processed`.
* `policies_agree`: the runs of a document.
-/

namespace Reckon

/-! ### Results -/

namespace Results

variable {a b c : Results} {statement : Statement} {error : EvalError}

/-- `later` holds all that `earlier` does, in the same order, and perhaps more after it. -/
def Extends (later earlier : Results) : Prop :=
  earlier.entries.toList <+: later.entries.toList ∧
    earlier.failures.toList <+: later.failures.toList

theorem Extends.refl (a : Results) : a.Extends a :=
  ⟨List.prefix_rfl, List.prefix_rfl⟩

theorem Extends.trans (hcb : c.Extends b) (hba : b.Extends a) : c.Extends a :=
  ⟨hba.1.trans hcb.1, hba.2.trans hcb.2⟩

theorem extends_record (a : Results) (id : EvaluationId) (outcome : Outcome) :
    (a.record id outcome).Extends a := by
  refine ⟨?_, List.prefix_rfl⟩
  rw [entries_record, Array.toList_push]
  exact List.prefix_append _ _

/-- Adds the error of a statement: to the entries for an evaluation, to the failures for a
variable. -/
def recordError (results : Results) : Statement → EvalError → Results
  | .evaluation id, error => results.record id (.error error)
  | .definition id, error => results.recordFailure id error

theorem extends_recordError (a : Results) (statement : Statement) (error : EvalError) :
    (a.recordError statement error).Extends a := by
  cases statement with
  | evaluation id => exact a.extends_record id _
  | definition id =>
    refine ⟨List.prefix_rfl, ?_⟩
    rw [recordError, recordFailure, Array.toList_push]
    exact List.prefix_append _ _

theorem hasErrors_recordError (a : Results) (statement : Statement) (error : EvalError) :
    (a.recordError statement error).hasErrors = true := by
  rw [hasErrors_iff]
  cases statement with
  | evaluation id => exact Or.inr ⟨_, Array.mem_push_self, error, rfl⟩
  | definition id => exact Or.inl ⟨_, Array.mem_push_self⟩

theorem Extends.hasErrors (h : b.Extends a) (ha : a.hasErrors = true) : b.hasErrors = true := by
  rw [hasErrors_iff] at ha ⊢
  rcases ha with ⟨failure, hmem⟩ | ⟨entry, hmem, error, herror⟩
  · exact Or.inl ⟨failure, Array.mem_toList_iff.1 (h.2.subset (Array.mem_toList_iff.2 hmem))⟩
  · exact Or.inr ⟨entry, Array.mem_toList_iff.1 (h.1.subset (Array.mem_toList_iff.2 hmem)),
      error, herror⟩

/-- The outcome of an evaluation that did not fail is not an error. -/
theorem hasErrors_record_ok (id : EvaluationId) (value : Value) (ha : a.hasErrors = false) :
    (a.record id (.ok value)).hasErrors = false := by
  rw [← Bool.not_eq_true, hasErrors_iff] at ha ⊢
  rintro (hfailure | ⟨entry, hmem, error, herror⟩)
  · exact ha (Or.inl hfailure)
  · rcases Array.mem_push.1 hmem with hmem | rfl
    · exact ha (Or.inr ⟨entry, hmem, error, herror⟩)
    · cases herror

end Results

namespace Document

variable {doc : Document} {stack : CallStack} {pass : Pass} {statement : Statement}

/-! ### One statement under both policies -/

/-- What a statement does to a pass, on a stack that it leaves as it was. -/
inductive Processed (doc : Document) (stack : CallStack) (pass : Pass) (statement : Statement) :
    Pass → Prop
  /-- It succeeds, and the policy does not matter. -/
  | done {next : Pass}
      (hrun : ∀ policy, doc.runStatement policy pass statement stack = .ok next stack)
      (hextends : next.results.Extends pass.results)
      (hclean : pass.results.hasErrors = false → next.results.hasErrors = false) :
      Processed doc stack pass statement next
  /-- It fails: the error ends the pass under one policy, and is recorded under the other. -/
  | failed {next : Pass} {error : EvalError}
      (habort : doc.runStatement .abortPass pass statement stack = .error (.error error) stack)
      (hper : doc.runStatement .perEvaluation pass statement stack = .ok next stack)
      (hresults : next.results = pass.results.recordError statement error) :
      Processed doc stack pass statement next

theorem exists_processed (h : doc.WellFormed) (hs : doc.HasStatement statement)
    (hk : pass.env.Known doc) (stack : CallStack) :
    ∃ next, doc.Processed stack pass statement next ∧ next.env.Known doc := by
  cases statement with
  | definition id =>
    obtain ⟨definition, hd⟩ : ∃ definition, doc.definitions[id.index]? = some definition :=
      ⟨_, Array.getElem?_eq_getElem hs⟩
    cases hf : definition.isFunction with
    | true =>
      refine ⟨_, .done (fun _ => runStatement_of_function hd hf) (Results.Extends.refl _)
        (fun hclean => hclean), hk.define ?_⟩
      rintro function ⟨⟩
      exact hs
    | false =>
      have hbody : definition.body.index < doc.exprs.size :=
        h.root_lt (Or.inl ⟨definition, Array.mem_of_getElem? hd, rfl⟩)
      obtain ⟨error | value, houtcome⟩ := (evalExpr_answers h hk hbody stack).attempt
      · exact ⟨_, .failed (runStatement_of_failed_variable hd hf houtcome)
          (runStatement_of_failed_variable hd hf houtcome) rfl, hk.define_value⟩
      · exact ⟨_, .done (fun _ => runStatement_of_variable hd hf houtcome)
          (Results.Extends.refl _) (fun hclean => hclean), hk.define_value⟩
  | evaluation id =>
    obtain ⟨evaluation, he⟩ : ∃ evaluation, doc.evaluations[id.index]? = some evaluation :=
      ⟨_, Array.getElem?_eq_getElem hs⟩
    have hexpr : evaluation.expr.index < doc.exprs.size :=
      h.root_lt (Or.inr ⟨evaluation, Array.mem_of_getElem? he, rfl⟩)
    obtain ⟨error | value, houtcome⟩ := (evalExpr_answers h hk hexpr stack).attempt
    · exact ⟨_, .failed (runStatement_of_failed_evaluation he houtcome)
        (runStatement_of_failed_evaluation he houtcome) rfl, hk⟩
    · exact ⟨_, .done (fun _ => runStatement_of_evaluation he houtcome)
        (Results.extends_record _ id _) (Results.hasErrors_record_ok id value), hk⟩

/-! ### A list of statements under both policies -/

/-- The statements of a list, processed in order from nothing. -/
def runList (doc : Document) (policy : ErrorPolicy) (statements : List Statement) : EvalM Pass :=
  statements.foldlM (doc.runStatement policy) {}

theorem runList_concat_of_ok {policy : ErrorPolicy} {statements : List Statement}
    (h : doc.runList policy statements stack = .ok pass stack) (statement : Statement) :
    doc.runList policy (statements ++ [statement]) stack =
      doc.runStatement policy pass statement stack := by
  rw [runList] at h ⊢
  rw [List.foldlM_append]
  simp only [bind, EStateM.bind, h, List.foldlM_cons, List.foldlM_nil]
  cases doc.runStatement policy pass statement stack <;> rfl

/-- A pass that has ended stays ended. -/
theorem runList_concat_of_error {policy : ErrorPolicy} {statements : List Statement} {stop : Stop}
    (h : doc.runList policy statements stack = .error stop stack) (statement : Statement) :
    doc.runList policy (statements ++ [statement]) stack = .error stop stack := by
  rw [runList] at h ⊢
  rw [List.foldlM_append]
  simp only [bind, EStateM.bind, h]

/-- Of the statements, the first that fails does so with `error`, and `results` hold it: the
statements before it have no errors, and what it adds to their results is kept. -/
def FirstError (doc : Document) (stack : CallStack) (statements : List Statement)
    (results : Results) (error : EvalError) : Prop :=
  ∃ before statement after, statements = before ++ statement :: after ∧
    ∃ earlier next : Pass,
      doc.runList .perEvaluation before stack = .ok earlier stack ∧
      earlier.results.hasErrors = false ∧
      doc.runStatement .perEvaluation earlier statement stack = .ok next stack ∧
      next.results = earlier.results.recordError statement error ∧
      results.Extends next.results

theorem FirstError.concat {statements : List Statement} {results later : Results}
    {error : EvalError} (h : doc.FirstError stack statements results error)
    (hlater : later.Extends results) (statement : Statement) :
    doc.FirstError stack (statements ++ [statement]) later error := by
  obtain ⟨before, failing, after, rfl, earlier, next, hbefore, hclean, hrun, hnext, hresults⟩ := h
  refine ⟨before, failing, after ++ [statement], ?_, earlier, next, hbefore, hclean, hrun, hnext,
    hlater.trans hresults⟩
  rw [List.append_assoc, List.cons_append]

theorem FirstError.hasErrors {statements : List Statement} {results : Results} {error : EvalError}
    (h : doc.FirstError stack statements results error) : results.hasErrors = true := by
  obtain ⟨-, failing, -, -, earlier, next, -, -, -, hnext, hresults⟩ := h
  apply hresults.hasErrors
  rw [hnext]
  exact earlier.results.hasErrors_recordError failing error

/-- How a pass that ends with the first error compares with one that came to `final`. -/
def AbortsLike (doc : Document) (stack : CallStack) (statements : List Statement)
    (final : Pass) : Prop :=
  (doc.runList .abortPass statements stack = .ok final stack ∧ final.results.hasErrors = false) ∨
    ∃ error, doc.runList .abortPass statements stack = .error (.error error) stack ∧
      doc.FirstError stack statements final.results error

/-- One more statement. Up to the first error the two passes are the same pass; from then on one
of them has ended, and the other only adds to its results. -/
theorem AbortsLike.concat {statements : List Statement} {next : Pass}
    (hrun : doc.runList .perEvaluation statements stack = .ok pass stack)
    (h : doc.AbortsLike stack statements pass)
    (hstatement : doc.Processed stack pass statement next) :
    doc.AbortsLike stack (statements ++ [statement]) next := by
  rcases h with ⟨habort, hclean⟩ | ⟨error, habort, hfirst⟩
  · cases hstatement with
    | done hnext _ hkeeps =>
      refine Or.inl ⟨?_, hkeeps hclean⟩
      rw [runList_concat_of_ok habort, hnext]
    | failed hfails hper hresults =>
      refine Or.inr ⟨_, ?_, statements, statement, [], rfl, pass, next, hrun, hclean, hper,
        hresults, Results.Extends.refl _⟩
      rw [runList_concat_of_ok habort, hfails]
  · refine Or.inr ⟨error, runList_concat_of_error habort statement, hfirst.concat ?_ statement⟩
    cases hstatement with
    | done _ hextends _ => exact hextends
    | failed _ _ hresults =>
      rw [hresults]
      exact Results.extends_recordError _ statement _

theorem exists_parallel_run (h : doc.WellFormed) (stack : CallStack) (statements : List Statement)
    (hs : ∀ statement ∈ statements, doc.HasStatement statement) :
    ∃ final, doc.runList .perEvaluation statements stack = .ok final stack ∧
      final.env.Known doc ∧ doc.AbortsLike stack statements final := by
  -- from the end, as the first error is the first of the list and not of what is left of it
  induction statements using List.reverseRecOn with
  | nil => exact ⟨{}, rfl, Environment.known_empty doc, Or.inl ⟨rfl, Results.hasErrors_empty⟩⟩
  | append_singleton statements statement ih =>
    obtain ⟨pass, hrun, hk, habort⟩ := ih fun s hmem => hs s (List.mem_append_left _ hmem)
    have hlast : doc.HasStatement statement :=
      hs statement (List.mem_append_right _ (List.mem_singleton_self statement))
    obtain ⟨next, hstatement, hknext⟩ := exists_processed h hlast hk stack
    refine ⟨next, ?_, hknext, habort.concat hrun hstatement⟩
    rw [runList_concat_of_ok hrun]
    cases hstatement with
    | done hnext _ _ => exact hnext .perEvaluation
    | failed _ hper _ => exact hper

/-! ### The runs of a document -/

section Run

variable {policy : ErrorPolicy} {depth : ℕ}

theorem run_of_ok {final : Pass}
    (h : doc.runList policy doc.statements.toList (.new depth) = .ok final stack) :
    (Evaluator.new doc { maxCallDepth := depth, errorPolicy := policy }).run.1 =
      .ok final.results := by
  have hrun : (Pass.results <$> doc.runPass policy) (.new depth) = .ok final.results stack := by
    rw [runPass, ← runList]
    simp only [Functor.map, EStateM.map, h]
  simp only [Evaluator.run, Evaluator.perform, Evaluator.new, hrun]

theorem run_of_error {stop : Stop}
    (h : doc.runList policy doc.statements.toList (.new depth) = .error stop stack) :
    (Evaluator.new doc { maxCallDepth := depth, errorPolicy := policy }).run.1 = .error stop := by
  have hrun : (Pass.results <$> doc.runPass policy) (.new depth) = .error stop stack := by
    rw [runPass, ← runList]
    simp only [Functor.map, EStateM.map, h]
  simp only [Evaluator.run, Evaluator.perform, Evaluator.new, hrun]

end Run

/-- **The error policies agree.** In a well-formed document, with any limit on the depth of calls,
recording the errors always gives results. Stopping at an error gives results exactly if these have
no errors, and then the same results; if they have some, it gives the error that they hold for the
first statement that failed. -/
theorem policies_agree (h : doc.WellFormed) (depth : ℕ) :
    ∃ results,
      (Evaluator.new doc { maxCallDepth := depth, errorPolicy := .perEvaluation }).run.1 =
        .ok results ∧
      ((∃ other, (Evaluator.new doc { maxCallDepth := depth, errorPolicy := .abortPass }).run.1 =
        .ok other) ↔ results.hasErrors = false) ∧
      (∀ other, (Evaluator.new doc { maxCallDepth := depth, errorPolicy := .abortPass }).run.1 =
        .ok other → other = results) ∧
      (results.hasErrors = true → ∃ error,
        (Evaluator.new doc { maxCallDepth := depth, errorPolicy := .abortPass }).run.1 =
          .error (.error error) ∧
        doc.FirstError (.new depth) doc.statements.toList results error) := by
  obtain ⟨final, hper, -, habort⟩ := exists_parallel_run h (.new depth) doc.statements.toList
    fun statement hmem => h.hasStatement statement (Array.mem_toList_iff.1 hmem)
  refine ⟨final.results, run_of_ok hper, ?_⟩
  rcases habort with ⟨hrun, hclean⟩ | ⟨error, hrun, hfirst⟩
  · rw [run_of_ok hrun]
    refine ⟨iff_of_true ⟨_, rfl⟩ hclean, ?_, ?_⟩
    · rintro other ⟨⟩
      rfl
    · intro herrors
      rw [hclean] at herrors
      cases herrors
  · rw [run_of_error hrun]
    have herrors : final.results.hasErrors = true := hfirst.hasErrors
    refine ⟨iff_of_false ?_ ?_, ?_, fun _ => ⟨error, rfl, hfirst⟩⟩
    · rintro ⟨other, ⟨⟩⟩
    · rw [herrors]
      exact Bool.noConfusion
    · rintro other ⟨⟩

/-- A function that calls itself, and a variable with a call that has no target. Two evaluations
stand after them: the first exceeds every limit, the second reads the variable. -/
def failingVariable : Document where
  exprs := #[.number ⟨0x3ff0000000000000⟩, .call none [], .call (some (.definition ⟨0⟩)) [⟨0⟩],
    .call (some (.definition ⟨1⟩)) []]
  definitions := #[{ name := ⟨0⟩, params := [⟨2⟩], body := ⟨2⟩ },
    { name := ⟨1⟩, params := [], body := ⟨1⟩ }]
  evaluations := #[{ expr := ⟨0⟩, source := none }, { expr := ⟨2⟩, source := none },
    { expr := ⟨3⟩, source := none }]
  statements := #[.evaluation ⟨0⟩, .definition ⟨0⟩, .definition ⟨1⟩, .evaluation ⟨1⟩,
    .evaluation ⟨2⟩]

/-- The error of the variable comes first, though the results keep it apart from the entries. -/
theorem failingVariable_policies :
    failingVariable.WellFormed ∧
      ∃ results,
        (Evaluator.new failingVariable
          { maxCallDepth := 2, errorPolicy := .perEvaluation }).run.1 = .ok results ∧
        results.hasErrors = true ∧
        failingVariable.FirstError (.new 2) failingVariable.statements.toList results
          (.unlinkedReference ⟨1⟩) := by
  have hw : failingVariable.WellFormed :=
    wellFormed_of_earlier (by decide) (by decide) (by decide) (by decide)
  have habort : (Evaluator.new failingVariable
      { maxCallDepth := 2, errorPolicy := .abortPass }).run.1 =
        .error (.error (.unlinkedReference ⟨1⟩)) := by
    rfl
  obtain ⟨results, hper, hiff, -, herror⟩ := policies_agree hw 2
  rw [habort] at hiff herror
  have herrors : results.hasErrors = true := by
    rw [← Bool.not_eq_false, ← hiff]
    rintro ⟨other, ⟨⟩⟩
  obtain ⟨error, ⟨⟩, hfirst⟩ := herror herrors
  exact ⟨hw, results, hper, herrors, hfirst⟩

end Document

end Reckon
