import Reckon.Proofs.Building
import Reckon.Proofs.Evaluation
import Reckon.Proofs.Validation
import Reckon.Proofs.Visits

/-!
# Built documents have no faults

Building checks neither operands nor bodies, so that a document may hold indices that point nowhere.
This file shows that it is enough to give a step only expressions that were answered before. Targets
of calls and greeted persons may still be anything.

* `Step.operands`, `Step.Supplied`: the expressions that a step is given, and the scripts that give
  their steps what earlier ones answered.
* `Document.Ordered`: parts come before the expressions made of them. Each step keeps this
  (`Ordered.of_effect`), and so does a script (`Step.Supplied.ordered`).
* `Step.Supplied.no_faults`: what is built is well formed, and neither evaluation nor a question about
  its results nor folding nor validation nor a walk meets a fault.
-/

namespace Reckon

/-! ### Scripts -/

namespace Step

/-- The expressions that a step is given: operands, arguments, a body or an expression to
evaluate. -/
def operands : Step → List ExprId
  | .addExpr expr => expr.children
  | .setBody _ body => [body]
  | .define _ _ body => [body]
  | .evaluate expr _ => [expr]
  | .addParameter .. | .declare .. | .addPerson _ | .greet _ | .intern _ => []

/-- Every expression that a step of the script is given was answered by a step before it. -/
def Supplied (script : List Step) : Prop :=
  ∀ i (h : i < script.length), ∀ id ∈ script[i].operands,
    Except.ok (Built.node id.node) ∈ (Document.empty.build (script.take i)).1

instance (script : List Step) : Decidable (Supplied script) :=
  inferInstanceAs (Decidable (∀ i (h : i < script.length), ∀ id ∈ script[i].operands,
    Except.ok (Built.node id.node) ∈ (Document.empty.build (script.take i)).1))

variable {script : List Step} {step : Step}

theorem Supplied.of_concat (h : Supplied (script ++ [step])) : Supplied script := by
  intro i hi id hid
  have hi' : i < (script ++ [step]).length := by
    rw [List.length_append]
    omega
  have hmem := h i hi' id (by rwa [List.getElem_append_left hi])
  rwa [List.take_append_of_le_length (Nat.le_of_lt hi)] at hmem

theorem Supplied.last (h : Supplied (script ++ [step])) {id : ExprId} (hid : id ∈ step.operands) :
    Except.ok (Built.node id.node) ∈ (Document.empty.build script).1 := by
  have hmem := h script.length (by simp) id (by simpa using hid)
  rwa [List.take_left] at hmem

end Step

/-! ### Parts before wholes -/

namespace Document

variable {doc next : Document} {expr : Expr} {id body : ExprId}

/-- Parts come before the expressions made of them, and all else is in its table. -/
structure Ordered (doc : Document) : Prop where
  part_lt : ∀ {whole part : ExprId}, doc.Child whole part → part.index < whole.index
  root_lt : ∀ {id : ExprId}, doc.IsRoot id → id.index < doc.exprs.size
  hasStatement : ∀ statement ∈ doc.statements, doc.HasStatement statement

theorem Ordered.wellFormed (h : doc.Ordered) : doc.WellFormed where
  child_lt hchild := (h.part_lt hchild).trans hchild.index_lt
  root_lt := h.root_lt
  acyclic := not_contains_self fun _ _ => h.part_lt
  hasStatement := h.hasStatement

theorem ordered_empty : empty.Ordered where
  part_lt := by
    rintro whole part ⟨expr, hexpr, -⟩
    simp [empty] at hexpr
  root_lt := by
    rintro id (⟨definition, hmem, -⟩ | ⟨evaluation, hmem, -⟩)
    · simp [empty] at hmem
    · simp [empty] at hmem
  hasStatement := by
    intro statement hmem
    simp [empty] at hmem

theorem HasStatement.mono {statement : Statement} (h : doc.HasStatement statement)
    (hdefinitions : doc.definitions.size ≤ next.definitions.size)
    (hevaluations : doc.evaluations.size ≤ next.evaluations.size) :
    next.HasStatement statement := by
  cases statement with
  | definition number => exact Nat.lt_of_lt_of_le h hdefinitions
  | evaluation number => exact Nat.lt_of_lt_of_le h hevaluations

/-- A new expression may be made of all that are there. -/
theorem Ordered.pushExpr (h : doc.Ordered)
    (hparts : ∀ part ∈ expr.children, part.index < doc.exprs.size) :
    ({ doc with exprs := doc.exprs.push expr } : Document).Ordered where
  part_lt := by
    rintro whole part ⟨other, hother, hpart⟩
    rw [Array.getElem?_push] at hother
    split at hother
    · cases hother
      have hlt := hparts part hpart
      omega
    · exact h.part_lt ⟨other, hother, hpart⟩
  root_lt := by
    intro id hroot
    have hlt := h.root_lt hroot
    rw [Array.size_push]
    omega
  hasStatement := h.hasStatement

theorem Ordered.pushDefinition {definition : Definition} (h : doc.Ordered)
    (hbody : definition.body.index < doc.exprs.size) (interner : Interner) :
    ({ doc with
      interner
      definitions := doc.definitions.push definition
      statements := doc.statements.push (.definition ⟨doc.definitions.size⟩) } : Document).Ordered where
  part_lt := h.part_lt
  root_lt := by
    rintro id (⟨other, hmem, rfl⟩ | hevaluation)
    · rcases Array.mem_push.1 hmem with hmem | rfl
      · exact h.root_lt (Or.inl ⟨other, hmem, rfl⟩)
      · exact hbody
    · exact h.root_lt (Or.inr hevaluation)
  hasStatement := by
    intro statement hmem
    rcases Array.mem_push.1 hmem with hmem | rfl
    · exact (h.hasStatement statement hmem).mono (by simp) (Nat.le_refl _)
    · simp [HasStatement]

theorem Ordered.pushEvaluation {evaluation : Evaluation} (h : doc.Ordered)
    (hexpr : evaluation.expr.index < doc.exprs.size) :
    ({ doc with
      evaluations := doc.evaluations.push evaluation
      statements := doc.statements.push (.evaluation ⟨doc.evaluations.size⟩) } : Document).Ordered where
  part_lt := h.part_lt
  root_lt := by
    rintro id (hdefinition | ⟨other, hmem, rfl⟩)
    · exact h.root_lt (Or.inl hdefinition)
    · rcases Array.mem_push.1 hmem with hmem | rfl
      · exact h.root_lt (Or.inr ⟨other, hmem, rfl⟩)
      · exact hexpr
  hasStatement := by
    intro statement hmem
    rcases Array.mem_push.1 hmem with hmem | rfl
    · exact (h.hasStatement statement hmem).mono (Nat.le_refl _) (by simp)
    · simp [HasStatement]

theorem Ordered.setBody (h : doc.Ordered) (number : DefId) (hbody : body.index < doc.exprs.size) :
    ({ doc with
      definitions := doc.definitions.modify number.index ({ · with body }) } : Document).Ordered where
  part_lt := h.part_lt
  root_lt := by
    rintro id (⟨other, hmem, rfl⟩ | hevaluation)
    · obtain ⟨i, hi, rfl⟩ := Array.mem_iff_getElem.1 hmem
      rw [Array.getElem_modify]
      split
      · exact hbody
      · exact h.root_lt (Or.inl ⟨_, Array.getElem_mem _, rfl⟩)
    · exact h.root_lt (Or.inr hevaluation)
  hasStatement := by
    intro statement hmem
    exact (h.hasStatement statement hmem).mono (by simp) (Nat.le_refl _)

theorem Ordered.introduce (h : doc.Ordered) (name : String) (params : List String)
    (hbody : body.index ≤ doc.exprs.size) : (doc.introduce name params body).Ordered := by
  have hpush : ({ doc with exprs := doc.exprs.push .error } : Document).Ordered :=
    h.pushExpr (by simp [Expr.children])
  apply hpush.pushDefinition
  -- the expression that is kept for the body counts as well
  rw [Array.size_push]
  exact Nat.lt_succ_of_le hbody

/-- **A step keeps the order** if what it is given is there. -/
theorem Ordered.of_effect {step : Step} {built : Built} (h : doc.Ordered)
    (heffect : step.Effect doc built next)
    (hoperands : ∀ id ∈ step.operands, id.index < doc.exprs.size) : next.Ordered := by
  cases heffect with
  | addExpr expr => exact h.pushExpr hoperands
  | addParameter _ _ => exact h.pushExpr (by simp [Expr.children])
  | declare name params => exact h.introduce name params (Nat.le_refl _)
  | setBody _ body => exact h.setBody _ (hoperands body (List.mem_singleton_self body))
  | define name params body =>
    exact h.introduce name params (Nat.le_of_lt (hoperands body (List.mem_singleton_self body)))
  | evaluate expr source => exact h.pushEvaluation (hoperands expr (List.mem_singleton_self expr))
  | addPerson | greet | intern => exact ⟨h.part_lt, h.root_lt, h.hasStatement⟩

theorem WellFormed.exists_fold (h : doc.WellFormed) (hid : id.index < doc.exprs.size) :
    ∃ value, doc.fold id = .ok value := by
  obtain ⟨value, hfolds⟩ := exists_folds h.acyclic fun _ hnode =>
    h.index_lt_of_within hid hnode.within
  exact ⟨value, (fold_eq_ok h.acyclic).2 hfolds⟩

end Document

namespace Step

variable {script : List Step} {step : Step} {doc next : Document} {built : Built}

theorem Effect.size_le (h : step.Effect doc built next) : doc.exprs.size ≤ next.exprs.size := by
  cases h <;> simp [Document.introduce]

theorem Effect.index_lt {id : ExprId} (h : step.Effect doc built next)
    (hbuilt : built = .node id.node) : id.index < next.exprs.size := by
  cases h <;> simp_all [NodeId.node]

/-- **A script keeps the order**, and what it has answered is there. -/
theorem Supplied.ordered (h : Supplied script) :
    (Document.built script).Ordered ∧
      ∀ id : ExprId, Except.ok (Built.node id.node) ∈ (Document.empty.build script).1 →
        id.index < (Document.built script).exprs.size := by
  -- from the end, as what a step may be given depends on the whole script before it
  induction script using List.reverseRecOn with
  | nil => exact ⟨Document.ordered_empty, by simp [Document.build]⟩
  | append_singleton script step ih =>
    obtain ⟨hordered, hanswered⟩ := ih h.of_concat
    have hoperands : ∀ id ∈ step.operands, id.index < (Document.built script).exprs.size :=
      fun id hid => hanswered id (h.last hid)
    rw [Document.built] at hordered hanswered hoperands ⊢
    rw [Document.build_concat]
    obtain ⟨built, next, happly, heffect⟩ | ⟨fault, happly, -⟩ :=
      step.apply_cases (Document.empty.build script).2
    · rw [happly]
      refine ⟨hordered.of_effect heffect hoperands, ?_⟩
      intro id hmem
      rcases List.mem_append.1 hmem with hmem | hmem
      · exact Nat.lt_of_lt_of_le (hanswered id hmem) heffect.size_le
      · exact heffect.index_lt (Except.ok.inj (List.mem_singleton.1 hmem)).symm
    · rw [happly]
      refine ⟨hordered, ?_⟩
      intro id hmem
      rcases List.mem_append.1 hmem with hmem | hmem
      · exact hanswered id hmem
      · cases List.mem_singleton.1 hmem

/-- **Built documents have no faults.** A script may link calls to anything and greet anyone, as long
as it makes up no expressions. Then the document is well formed, a run comes to results or an error of
the calculation under every configuration, and so does every expression by itself. What is asked of the
results is answered for every index, also for those of no evaluation. Each expression can be folded, and
the document can be validated and walked through. -/
theorem Supplied.no_faults (h : Supplied script) :
    (Document.built script).WellFormed ∧
    (∀ evaluator : Evaluator, evaluator.document = Document.built script →
      ((∃ results, evaluator.run.1 = .ok results ∧ ∀ id : EvaluationId,
          (∃ outcome, results.outcome? id = .ok outcome) ∧
          (∃ value, results.value id = .ok value) ∧ ∃ error, results.error? id = .ok error) ∨
        ∃ error, evaluator.run.1 = .error (.error error)) ∧
      ∀ id : ExprId, id.index < (Document.built script).exprs.size →
        (∃ value, (evaluator.evalDetached id).1 = .ok value) ∨
          ∃ error, (evaluator.evalDetached id).1 = .error (.error error)) ∧
    (∀ id : ExprId, id.index < (Document.built script).exprs.size →
      ∃ value, (Document.built script).fold id = .ok value) ∧
    (∃ errors, (Document.built script).greetingDiagnostics = .ok errors) ∧
    (∀ changes, ∃ diagnostics, (Document.built script).validate changes = .ok diagnostics) ∧
    (∃ nodes, (Document.built script).visits = .ok nodes) ∧
    ∀ {σ : Type} (visit : σ → Visit → Except Fault σ),
      (∀ state stop, ∃ next, visit state stop = .ok next) →
      ∀ state, ∃ final, (Document.built script).walk visit state = .ok final := by
  have hw : (Document.built script).WellFormed := h.ordered.1.wellFormed
  refine ⟨hw, ?_, fun id hid => hw.exists_fold hid, ⟨_, Document.greetingDiagnostics_eq _⟩,
    fun changes => ⟨_, Document.validate_of_walkable hw.walkable changes⟩,
    ⟨_, Document.visits_eq hw.walkable⟩, ?_⟩
  · intro evaluator hdocument
    rw [← hdocument] at hw ⊢
    refine ⟨?_, fun id hid => Evaluator.evalDetached_answers hw hid⟩
    rcases Evaluator.run_answers hw with ⟨results, hrun⟩ | herror
    · exact Or.inl ⟨results, hrun, fun id =>
        ⟨results.exists_outcome? id, results.exists_value id, results.exists_error? id⟩⟩
    · exact Or.inr herror
  · intro σ visit hvisit state
    exact Document.exists_walk hw.walkable hvisit state

/-- A function that calls itself, divided by a call that is linked to a parameter of nothing. Two
steps are refused, as there is only one definition. One greeting is of nobody in the document, between
two of the same person. -/
def danglingScript : List Step := [
  .declare "f" ["x"],
  .addParameter ⟨0⟩ 0,
  .addExpr (.call (some (.definition ⟨0⟩)) [⟨1⟩]),
  .setBody ⟨0⟩ ⟨2⟩,
  .addParameter ⟨5⟩ 0,
  .setBody ⟨5⟩ ⟨2⟩,
  .addExpr (.call (some (.parameter ⟨7⟩ 2)) []),
  .addExpr (.binary .div ⟨2⟩ ⟨3⟩),
  .evaluate ⟨4⟩ none,
  .addPerson "World",
  .greet (some ⟨0⟩),
  .greet (some ⟨9⟩),
  .greet (some ⟨0⟩)]

theorem danglingScript_no_faults :
    Supplied danglingScript ∧ (Document.built danglingScript).WellFormed ∧
      (∃ value, (Document.built danglingScript).fold ⟨4⟩ = .ok value) ∧
      (∃ errors, (Document.built danglingScript).greetingDiagnostics = .ok errors ∧
        errors.map (·.node) = [⟨.greeting, 2⟩]) ∧
      (∃ diagnostics, (Document.built danglingScript).validate Uppercase.changes =
        .ok diagnostics) ∧
      ∃ results, (Evaluator.new (Document.built danglingScript)
          { maxCallDepth := 2, errorPolicy := .perEvaluation }).run.1 = .ok results ∧
        results.outcome? ⟨0⟩ = .ok (some (.error (.recursionLimit "f" ⟨2⟩ 2))) ∧
        (∃ outcome, results.outcome? ⟨9⟩ = .ok outcome) ∧
        (∃ value, results.value ⟨9⟩ = .ok value) ∧ ∃ error, results.error? ⟨9⟩ = .ok error := by
  have h : Supplied danglingScript := by decide +kernel
  obtain ⟨hw, hruns, hfold, ⟨errors, herrors⟩, hvalidate, -⟩ := Supplied.no_faults h
  have hnodes : (Document.built danglingScript).greetingDiagnostics.map (·.map (·.node)) =
      .ok [⟨.greeting, 2⟩] := by
    decide +kernel
  have hrun : (Evaluator.new (Document.built danglingScript)
      { maxCallDepth := 2, errorPolicy := .perEvaluation }).run.1 =
        .ok (Results.empty.record ⟨0⟩ (.error (.recursionLimit "f" ⟨2⟩ 2))) := by
    decide +kernel
  refine ⟨h, hw, hfold ⟨4⟩ (by decide +kernel), ⟨errors, herrors, ?_⟩, hvalidate Uppercase.changes,
    _, hrun, rfl, ?_⟩
  · rw [herrors] at hnodes
    exact Except.ok.inj hnodes
  · rcases (hruns (.new _ { maxCallDepth := 2, errorPolicy := .perEvaluation }) rfl).1 with
      ⟨results, hresults, hanswers⟩ | ⟨error, herror⟩
    · cases hrun.symm.trans hresults
      exact hanswers ⟨9⟩
    · cases hrun.symm.trans herror

end Step

end Reckon
