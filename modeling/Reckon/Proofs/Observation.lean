import Reckon.Proofs.Simulation

/-!
# Evaluations only observe

An evaluation reads what the definitions before it have bound, and leaves nothing behind but its entry
in the results. This file compares the runs of two documents that differ in one evaluation: whatever it
comes to in either of them, nothing else can tell.

* `Document.SameBut`: the documents differ in one evaluation at most.
* `Results.AgreeBut`: results that differ in the entries of one evaluation at most. Settling a statement
  keeps this (`AgreeBut.settle`), also with two outcomes for the evaluation itself
  (`AgreeBut.settle_evaluation`).
* `Runs.exists_agreeing`: two passes side by side, with the same environment throughout.
* `evaluation_observes`: the runs of the two documents.
-/

namespace Reckon

/-! ### Results that agree -/

namespace Results

variable {a b : Results} {number : EvaluationId}

/-- The results differ in the entries of this evaluation at most. -/
structure AgreeBut (number : EvaluationId) (a b : Results) : Prop where
  failures_eq : b.failures = a.failures
  entries : List.Forall₂ (fun x y : Entry => y.evaluation = x.evaluation ∧
    (x.evaluation ≠ number → y = x)) a.entries.toList b.entries.toList

theorem AgreeBut.refl (number : EvaluationId) (a : Results) : AgreeBut number a a where
  failures_eq := rfl
  entries := by
    rw [List.forall₂_same]
    exact fun _ _ => ⟨rfl, fun _ => rfl⟩

theorem AgreeBut.record {outcome outcome' : Outcome} {other : EvaluationId} (h : AgreeBut number a b)
    (houtcome : other ≠ number → outcome' = outcome) :
    AgreeBut number (a.record other outcome) (b.record other outcome') where
  failures_eq := h.failures_eq
  entries := by
    rw [Results.entries_record, Results.entries_record, Array.toList_push, Array.toList_push]
    refine List.rel_append h.entries (.cons ⟨rfl, ?_⟩ .nil)
    intro hne
    rw [houtcome hne]

theorem AgreeBut.settle (h : AgreeBut number a b) (statement : Statement) (outcome : Outcome) :
    AgreeBut number (a.settle statement outcome) (b.settle statement outcome) := by
  cases statement with
  | evaluation other =>
    rw [settle_evaluation, settle_evaluation]
    exact h.record fun _ => rfl
  | definition definition =>
    cases outcome with
    | ok value => exact h
    | error error =>
      refine ⟨?_, h.entries⟩
      show b.failures.push (definition, error) = a.failures.push (definition, error)
      rw [h.failures_eq]

/-- The evaluation in question may have come to different outcomes. -/
theorem AgreeBut.settle_evaluation (h : AgreeBut number a b) (outcome outcome' : Outcome) :
    AgreeBut number (a.settle (.evaluation number) outcome)
      (b.settle (.evaluation number) outcome') := by
  rw [Results.settle_evaluation, Results.settle_evaluation]
  exact h.record fun hne => absurd rfl hne

end Results

/-! ### Two passes side by side -/

namespace Document

variable {doc doc' : Document} {number : EvaluationId} {stack : CallStack} {pass : Pass}
  {statements : List Statement}

/-- The documents have the same code and the same statements, and differ in one evaluation at
most. -/
structure SameBut (number : EvaluationId) (doc doc' : Document) : Prop where
  code : doc.SameCode doc'
  statements_eq : doc'.statements = doc.statements
  evaluations_eq : ∀ other : EvaluationId, other ≠ number →
    doc'.evaluations[other.index]? = doc.evaluations[other.index]?

theorem SameBut.known (h : doc.SameBut number doc') {env : Environment} (hk : env.Known doc) :
    env.Known doc' := by
  intro name id hlookup
  rw [h.code.definitions_eq]
  exact hk name id hlookup

/-- A statement other than the evaluation comes to the same in both documents, and the evaluation to
something. -/
theorem Computes.exists_other {env : Environment} {statement : Statement} {outcome : Outcome}
    (hc : doc.Computes stack env statement outcome) (h : doc.WellFormed) (h' : doc'.WellFormed)
    (hsame : doc.SameBut number doc') (hk : env.Known doc) (hmem : statement ∈ doc'.statements) :
    ∃ outcome', doc'.Computes stack env statement outcome' ∧
      (statement ≠ .evaluation number → outcome' = outcome) := by
  by_cases heq : statement = .evaluation number
  · subst heq
    have hhas : number.index < doc'.evaluations.size := h'.hasStatement _ hmem
    have hget : doc'.evaluations[number.index]? = some doc'.evaluations[number.index] :=
      Array.getElem?_eq_getElem hhas
    have hexpr := h'.root_lt (Or.inr ⟨_, Array.mem_of_getElem? hget, rfl⟩)
    obtain ⟨outcome', hy⟩ := exists_yields h' (hsame.known hk) hexpr stack
    exact ⟨outcome', .evaluation hget hy, fun hne => absurd rfl hne⟩
  · refine ⟨outcome, ?_, fun _ => rfl⟩
    apply hc.of_sameCode h hsame.code hk _ ⟨rfl, rfl, rfl⟩ (Nat.le_refl stack.limit) (Or.inl rfl)
    intro other hother
    apply hsame.evaluations_eq
    intro hnumber
    exact heq (hother.trans (congrArg Statement.evaluation hnumber))

/-- **Two passes keep the same environment**, and results that agree. -/
theorem Runs.exists_agreeing (hruns : doc.Runs .perEvaluation stack statements pass)
    (h : doc.WellFormed) (h' : doc'.WellFormed) (hsame : doc.SameBut number doc')
    (hmem : ∀ statement ∈ statements, statement ∈ doc.statements) :
    ∃ pass', doc'.Runs .perEvaluation stack statements pass' ∧ pass'.env = pass.env ∧
      Results.AgreeBut number pass.results pass'.results := by
  induction hruns with
  | nil => exact ⟨{}, .nil, rfl, Results.AgreeBut.refl number _⟩
  | @concat statements earlier statement outcome hearlier hc _ ih =>
    have hbefore : ∀ s ∈ statements, s ∈ doc.statements :=
      fun s hs => hmem s (List.mem_append_left _ hs)
    have hlast : statement ∈ doc'.statements := by
      rw [hsame.statements_eq]
      exact hmem statement (List.mem_append_right _ (List.mem_singleton_self statement))
    have hk : earlier.env.Known doc := hearlier.known hbefore
    obtain ⟨earlier', hruns', henv, hagree⟩ := ih hbefore
    obtain ⟨outcome', hc', houtcome⟩ := hc.exists_other h h' hsame hk hlast
    rw [← henv] at hc'
    refine ⟨_, hruns'.concat hc' (ErrorPolicy.admits_perEvaluation outcome'), ?_, ?_⟩
    · rw [hsame.code.settle_eq]
      show doc.settleEnv earlier'.env statement outcome' = doc.settleEnv earlier.env statement outcome
      rw [henv]
      by_cases heq : statement = .evaluation number
      · rw [heq]
        rfl
      · rw [houtcome heq]
    · rw [hsame.code.settle_eq]
      by_cases heq : statement = .evaluation number
      · rw [heq]
        exact hagree.settle_evaluation outcome outcome'
      · rw [houtcome heq]
        exact hagree.settle statement outcome

/-- **Evaluations only observe.** If two well-formed documents differ in the expression of one
evaluation, then with errors recorded and with any limit on the depth of calls both runs give results,
with the same variables that could not be computed and the same entries for all other evaluations, in
the same places. It does not matter what the evaluation comes to in either document. -/
theorem evaluation_observes (h : doc.WellFormed) (h' : doc'.WellFormed)
    (hsame : doc.SameBut number doc') (depth : ℕ) :
    ∃ results results',
      (Evaluator.new doc { maxCallDepth := depth, errorPolicy := .perEvaluation }).run.1 =
        .ok results ∧
      (Evaluator.new doc' { maxCallDepth := depth, errorPolicy := .perEvaluation }).run.1 =
        .ok results' ∧
      results'.failures = results.failures ∧
      List.Forall₂ (fun x y : Entry => y.evaluation = x.evaluation ∧
        (x.evaluation ≠ number → y = x)) results.entries.toList results'.entries.toList := by
  have hmem : ∀ statement ∈ doc.statements.toList, statement ∈ doc.statements :=
    fun _ hs => Array.mem_toList_iff.1 hs
  obtain ⟨pass, hruns⟩ := exists_runs h (.new depth) hmem
  obtain ⟨pass', hruns', -, hagree⟩ := hruns.exists_agreeing h h' hsame hmem
  rw [← hsame.statements_eq] at hruns'
  exact ⟨pass.results, pass'.results, run_eq_ok.2 ⟨pass, hruns, rfl⟩,
    run_eq_ok.2 ⟨pass', hruns', rfl⟩, hagree.failures_eq, hagree.entries⟩

/-- A function that calls itself, an evaluation of this expression, and after it a variable with a call
that has no target and an evaluation of a number. -/
def observed (expr : ExprId) : Document where
  exprs := #[.number ⟨0x3ff0000000000000⟩, .call none [], .call (some (.definition ⟨0⟩)) [⟨0⟩],
    .call (some (.definition ⟨1⟩)) []]
  definitions := #[{ name := ⟨1⟩, params := [⟨2⟩], body := ⟨2⟩ },
    { name := ⟨3⟩, params := [], body := ⟨1⟩ }]
  evaluations := #[{ expr, source := none }, { expr := ⟨0⟩, source := none }]
  statements := #[.definition ⟨0⟩, .evaluation ⟨0⟩, .definition ⟨1⟩, .evaluation ⟨1⟩]

/-- The first evaluation reads a variable that is not there yet, or exceeds every limit. -/
theorem observed_agree :
    (observed ⟨3⟩).WellFormed ∧ (observed ⟨2⟩).WellFormed ∧
      (observed ⟨3⟩).SameBut ⟨0⟩ (observed ⟨2⟩) ∧
      ∃ results results',
        (Evaluator.new (observed ⟨3⟩)
          { maxCallDepth := 4, errorPolicy := .perEvaluation }).run.1 = .ok results ∧
        (Evaluator.new (observed ⟨2⟩)
          { maxCallDepth := 4, errorPolicy := .perEvaluation }).run.1 = .ok results' ∧
        results.outcome? ⟨0⟩ = .ok (some (.ok none)) ∧
        results'.outcome? ⟨0⟩ = .ok (some (.error (.recursionLimit "" ⟨2⟩ 4))) ∧
        results'.failures = results.failures := by
  have hw : (observed ⟨3⟩).WellFormed :=
    wellFormed_of_earlier (by decide) (by decide) (by decide) (by decide)
  have hw' : (observed ⟨2⟩).WellFormed :=
    wellFormed_of_earlier (by decide) (by decide) (by decide) (by decide)
  have hsame : (observed ⟨3⟩).SameBut ⟨0⟩ (observed ⟨2⟩) := by
    refine ⟨⟨rfl, rfl, rfl⟩, rfl, ?_⟩
    rintro ⟨i⟩ hne
    cases i with
    | zero => exact absurd rfl hne
    | succ i => cases i <;> rfl
  obtain ⟨results, results', hrun, hrun', hfailures, -⟩ := evaluation_observes hw hw' hsame 4
  refine ⟨hw, hw', hsame, results, results', hrun, hrun', ?_, ?_, hfailures⟩
  · cases hrun
    rfl
  · cases hrun'
    rfl

end Document

end Reckon
