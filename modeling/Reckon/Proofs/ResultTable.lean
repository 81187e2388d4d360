import Reckon.Proofs.Numbering
import Reckon.Proofs.Statements

/-!
# Results as a table

Results hold entries in the order in which a pass came by, and answer questions about an evaluation by
its index. This file shows that in a built document the two fit together: the entry of an evaluation
stands in the place of its index, and every evaluation has exactly one.

* `Results.isLast_iff_of_numbered`: where entries stand in the places of their indices, the index leads
  to these places (`Results.index_of_numbered`), and the outcome of an evaluation is the one in its place
  (`Results.outcome?_of_numbered`).
* `Runs.map_evaluation`, `Runs.map_failure_sublist`: a pass adds entries for its evaluations and failures
  for some of its definitions, both in order. These are by induction on the pass.
* `Results.Tabulates`, `run_tabulates`: the law as a whole, for every document that a script builds.
-/

namespace Reckon

namespace Results

variable {results : Results} {id : EvaluationId}

/-! ### Answers by evaluation -/

theorem error?_eq_some {error : EvalError} :
    results.error? id = .ok (some error) ↔ results.outcome? id = .ok (some (.error error)) := by
  obtain ⟨outcome, houtcome⟩ := results.exists_outcome? id
  rw [error?_of_outcome? houtcome, houtcome]
  rcases outcome with _ | (other | value) <;> simp [Outcome.error?]

/-! ### Entries in the places of their indices -/

theorem evaluation_of_numbered {entries : Array Entry} {count : ℕ}
    (h : entries.toList.map Entry.evaluation = NodeId.range .evaluation count) (place : ℕ) :
    entries[place]?.map Entry.evaluation = if place < count then some ⟨place⟩ else none := by
  rw [← Array.getElem?_toList, ← List.getElem?_map, h, NodeId.range, List.getElem?_map]
  by_cases hplace : place < count
  · rw [if_pos hplace, List.getElem?_range hplace]
    rfl
  · rw [if_neg hplace, List.getElem?_eq_none (by simpa using hplace)]
    rfl

/-- If all entries stand in the places of their indices, then these are the last places. -/
theorem isLast_iff_of_numbered {entries : Array Entry} {count place : ℕ}
    (h : entries.toList.map Entry.evaluation = NodeId.range .evaluation count) :
    Entry.IsLast entries id place ↔ id.index < count ∧ id.index = place := by
  have hfound (i : ℕ) : entries[i]?.map Entry.evaluation = some id ↔ i < count ∧ id.index = i := by
    rw [evaluation_of_numbered h]
    split
    · rename_i hi
      rw [Option.some.injEq]
      exact ⟨fun heq => ⟨hi, by rw [← heq]⟩, fun ⟨_, heq⟩ => by rw [← heq]⟩
    · rename_i hi
      simp [hi]
  constructor
  · intro hlast
    obtain ⟨hlt, heq⟩ := (hfound place).1 hlast.found
    exact ⟨heq ▸ hlt, heq⟩
  · rintro ⟨hlt, rfl⟩
    refine ⟨(hfound _).2 ⟨hlt, rfl⟩, ?_⟩
    intro later hlater hsome
    have heq := ((hfound later).1 hsome).2
    omega

/-- Then the index gives each evaluation the place of its own index, -/
theorem index_of_numbered {count : ℕ}
    (h : results.entries.toList.map Entry.evaluation = NodeId.range .evaluation count)
    (id : EvaluationId) :
    results.index[id]? = if id.index < count then some id.index else none := by
  apply Option.ext
  intro place
  rw [results.index_iff, isLast_iff_of_numbered h]
  split <;> simp_all

/-- and the outcome of an evaluation is the one in its place. -/
theorem outcome?_of_numbered {count : ℕ}
    (h : results.entries.toList.map Entry.evaluation = NodeId.range .evaluation count)
    (id : EvaluationId) :
    results.outcome? id = .ok (results.entries[id.index]?.map Entry.outcome) := by
  have hsize : results.entries.size = count := NodeId.length_of_map_eq_range h
  cases hentry : results.entries[id.index]? with
  | some entry =>
    have hlt : id.index < count := hsize ▸ (Array.getElem?_eq_some_iff.1 hentry).1
    exact outcome?_of_isLast ((isLast_iff_of_numbered h).2 ⟨hlt, rfl⟩) hentry
  | none =>
    have hle : count ≤ id.index := hsize ▸ Array.getElem?_eq_none_iff.1 hentry
    apply outcome?_of_absent
    intro place hlast
    exact absurd ((isLast_iff_of_numbered h).1 hlast).1 (Nat.not_lt.2 hle)

/-- There are errors if an evaluation has one that can be asked for, or if a variable failed. -/
theorem hasErrors_iff_error? {count : ℕ}
    (h : results.entries.toList.map Entry.evaluation = NodeId.range .evaluation count) :
    results.hasErrors = true ↔
      (∃ id error, results.error? id = .ok (some error)) ∨ results.failures ≠ #[] := by
  have hfailures : (∃ failure, failure ∈ results.failures) ↔ results.failures ≠ #[] := by
    rw [← Array.isEmpty_eq_false_iff_exists_mem]
    simp
  have hentries : (∃ entry ∈ results.entries, ∃ error, entry.outcome = .error error) ↔
      ∃ id error, results.error? id = .ok (some error) := by
    constructor
    · intro herror
      obtain ⟨entry, hmem, error, houtcome⟩ := herror
      obtain ⟨place, hplace⟩ := Array.mem_iff_getElem?.1 hmem
      refine ⟨⟨place⟩, error, error?_eq_some.2 ?_⟩
      rw [outcome?_of_numbered h, hplace, ← houtcome]
      rfl
    · intro herror
      obtain ⟨id, error, herror⟩ := herror
      rw [error?_eq_some, outcome?_of_numbered h] at herror
      obtain ⟨entry, hentry, houtcome⟩ := Option.map_eq_some_iff.1 (Except.ok.inj herror)
      exact ⟨entry, Array.mem_of_getElem? hentry, error, houtcome⟩
  rw [hasErrors_iff, hfailures, hentries, Or.comm]

/-! ### What a statement adds -/

theorem map_evaluation_settle (results : Results) (statement : Statement) (outcome : Outcome) :
    (results.settle statement outcome).entries.toList.map Entry.evaluation =
      results.entries.toList.map Entry.evaluation ++ statement.evaluation?.toList := by
  cases statement with
  | evaluation number =>
    rw [settle_evaluation, entries_record, Array.toList_push, List.map_append]
    rfl
  | definition number =>
    cases outcome with
    | ok value => exact (List.append_nil _).symm
    | error error => exact (List.append_nil _).symm

/-- A statement adds a failure only where it is a definition that comes to an error. -/
theorem failures_settle_cases (results : Results) (statement : Statement) (outcome : Outcome) :
    (results.settle statement outcome).failures = results.failures ∨
      ∃ number error, statement = .definition number ∧ outcome = .error error ∧
        (results.settle statement outcome).failures = results.failures.push (number, error) := by
  cases statement with
  | evaluation number =>
    rw [settle_evaluation]
    exact Or.inl rfl
  | definition number =>
    cases outcome with
    | ok value => exact Or.inl rfl
    | error error => exact Or.inr ⟨number, error, rfl, rfl, rfl⟩

end Results

/-! ### What a pass adds -/

namespace Document

variable {doc : Document} {policy : ErrorPolicy} {stack : CallStack} {env : Environment}
  {pass : Pass} {statements : List Statement}

theorem Runs.map_evaluation (h : doc.Runs policy stack statements pass) :
    pass.results.entries.toList.map Entry.evaluation =
      statements.filterMap Statement.evaluation? := by
  induction h with
  | nil => rfl
  | @concat statements earlier statement outcome _ _ _ ih =>
    rw [List.filterMap_append, settle, Results.map_evaluation_settle, ih]
    cases statement <;> rfl

theorem Runs.map_failure_sublist (h : doc.Runs policy stack statements pass) :
    (pass.results.failures.toList.map Prod.fst).Sublist
      (statements.filterMap Statement.definition?) := by
  induction h with
  | nil => exact List.Sublist.refl _
  | @concat statements earlier statement outcome _ _ _ ih =>
    rw [List.filterMap_append, settle]
    obtain hsame | ⟨number, error, rfl, -, hpush⟩ :=
      earlier.results.failures_settle_cases statement outcome
    · rw [hsame]
      exact ih.trans (List.sublist_append_left _ _)
    · rw [hpush, Array.toList_push, List.map_append]
      exact ih.append (List.Sublist.refl _)

/-- Only variables are computed, so only they can fail. -/
theorem Computes.params_eq_nil {number : DefId} {error : EvalError}
    (h : doc.Computes stack env (.definition number) (.error error)) :
    ∃ definition, doc.definitions[number.index]? = some definition ∧ definition.params = [] := by
  cases h with
  | assignment hd hf hy => exact ⟨_, hd, by simpa [Definition.isFunction] using hf⟩

theorem Runs.params_eq_nil (h : doc.Runs policy stack statements pass)
    {failure : DefId × EvalError} (hmem : failure ∈ pass.results.failures) :
    ∃ definition, doc.definitions[failure.1.index]? = some definition ∧ definition.params = [] := by
  induction h with
  | nil => exact absurd hmem (Array.not_mem_empty failure)
  | @concat statements earlier statement outcome _ hc _ ih =>
    rw [settle] at hmem
    obtain hsame | ⟨number, error, rfl, rfl, hpush⟩ :=
      earlier.results.failures_settle_cases statement outcome
    · rw [hsame] at hmem
      exact ih hmem
    · rw [hpush] at hmem
      rcases Array.mem_push.1 hmem with hearlier | rfl
      · exact ih hearlier
      · exact hc.params_eq_nil

end Document

/-! ### The table of a run -/

/-- The results are a table of the evaluations of a document. -/
structure Results.Tabulates (results : Results) (doc : Document) : Prop where
  /-- The entries are those of the evaluations in order, each one once. -/
  evaluations : results.entries.toList.map Entry.evaluation =
    NodeId.range .evaluation doc.evaluations.size
  /-- The index has the evaluations of the document and no others, each with its own place. -/
  index_eq : ∀ id : EvaluationId, results.index[id]? =
    if id.index < doc.evaluations.size then some id.index else none
  /-- Every look-up is answered: the outcome of an evaluation is the one in its place, -/
  outcome?_eq : ∀ id, results.outcome? id = .ok (results.entries[id.index]?.map Entry.outcome)
  /-- and there is one for the evaluations of the document, -/
  outcome?_of_lt : ∀ id : EvaluationId, id.index < doc.evaluations.size →
    ∃ outcome, results.outcome? id = .ok (some outcome)
  /-- and none for any other index. -/
  outcome?_of_le : ∀ id : EvaluationId, doc.evaluations.size ≤ id.index →
    results.outcome? id = .ok none
  /-- Values and errors are those of the outcome. -/
  value_eq : ∀ id outcome, results.outcome? id = .ok outcome →
    results.value id = .ok (outcome.bind Outcome.value)
  error?_eq : ∀ id outcome, results.outcome? id = .ok outcome →
    results.error? id = .ok (outcome.bind Outcome.error?)
  /-- The definitions that failed are in order, each one once, -/
  failures_lt : results.failures.toList.Pairwise fun a b => a.1.index < b.1.index
  /-- and they are variables. -/
  failures_params : ∀ failure ∈ results.failures, ∃ definition,
    doc.definitions[failure.1.index]? = some definition ∧ definition.params = []
  hasErrors_iff : results.hasErrors = true ↔
    (∃ id error, results.error? id = .ok (some error)) ∨ results.failures ≠ #[]

namespace Document

/-- **The results of a run are a table.** Whatever the script, the policy and the limit on the depth of
calls, and whether or not the expressions of the document are in order: a run that gives results has an
entry for each evaluation in the place of its index, questions about an evaluation are answered from
there, and the failures are those of variables in the order of their definitions. -/
theorem run_tabulates (script : List Step) (policy : ErrorPolicy) (depth : ℕ) (results : Results)
    (hrun : (Evaluator.new (built script)
      { maxCallDepth := depth, errorPolicy := policy }).run.1 = .ok results) :
    results.Tabulates (built script) := by
  obtain ⟨pass, hruns, rfl⟩ := run_eq_ok.1 hrun
  have hnumbered := numbered_built script
  have hentries : pass.results.entries.toList.map Entry.evaluation =
      NodeId.range .evaluation (built script).evaluations.size := by
    rw [hruns.map_evaluation, hnumbered.evaluations]
  have hsize : pass.results.entries.size = (built script).evaluations.size :=
    NodeId.length_of_map_eq_range hentries
  have houtcome := Results.outcome?_of_numbered hentries
  refine ⟨hentries, Results.index_of_numbered hentries, houtcome, ?_, ?_,
    fun _ _ => Results.value_of_outcome?, fun _ _ => Results.error?_of_outcome?, ?_,
    fun failure => hruns.params_eq_nil, Results.hasErrors_iff_error? hentries⟩
  · intro id hlt
    rw [houtcome, Array.getElem?_eq_getElem (hsize ▸ hlt)]
    exact ⟨_, rfl⟩
  · intro id hle
    rw [houtcome, Array.getElem?_eq_none (hsize ▸ hle)]
    rfl
  · have hsublist := hruns.map_failure_sublist
    rw [hnumbered.definitions] at hsublist
    have hpairwise := (NodeId.pairwise_range _).sublist hsublist
    rwa [List.pairwise_map] at hpairwise

/-- The variables `x` and `y` are calls without a target, and the body of `f` is the number one. The
evaluations are this number, a call without a target, and the number once more. -/
def repeatedScript : List Step := [
  .addExpr (.number ⟨0x3ff0000000000000⟩),
  .addExpr (.call none []),
  .define "x" [] ⟨1⟩,
  .evaluate ⟨0⟩ none,
  .define "f" ["a"] ⟨0⟩,
  .evaluate ⟨1⟩ none,
  .define "y" [] ⟨1⟩,
  .evaluate ⟨0⟩ none]

/-- The two evaluations of the same expression have entries of their own. -/
theorem repeatedScript_tabulates :
    ∃ results, (Evaluator.new (built repeatedScript)
        { maxCallDepth := 0, errorPolicy := .perEvaluation }).run.1 = .ok results ∧
      results.Tabulates (built repeatedScript) ∧
      results.value ⟨0⟩ = .ok (some ⟨0x3ff0000000000000⟩) ∧
      results.error? ⟨1⟩ = .ok (some (.unlinkedReference ⟨1⟩)) ∧
      results.value ⟨2⟩ = .ok (some ⟨0x3ff0000000000000⟩) ∧ results.outcome? ⟨3⟩ = .ok none ∧
      results.failures = #[(⟨0⟩, .unlinkedReference ⟨1⟩), (⟨2⟩, .unlinkedReference ⟨1⟩)] := by
  have hrun : (Evaluator.new (built repeatedScript)
      { maxCallDepth := 0, errorPolicy := .perEvaluation }).run.1 = .ok
        (Results.empty.recordFailure ⟨0⟩ (.unlinkedReference ⟨1⟩)
          |>.record ⟨0⟩ (.ok (some ⟨0x3ff0000000000000⟩))
          |>.record ⟨1⟩ (.error (.unlinkedReference ⟨1⟩))
          |>.recordFailure ⟨2⟩ (.unlinkedReference ⟨1⟩)
          |>.record ⟨2⟩ (.ok (some ⟨0x3ff0000000000000⟩))) := by
    decide +kernel
  exact ⟨_, hrun, run_tabulates repeatedScript _ _ _ hrun, rfl, rfl, rfl, rfl, rfl⟩

end Document

end Reckon
