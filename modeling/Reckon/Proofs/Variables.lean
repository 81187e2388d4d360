import Reckon.Proofs.BuiltDocuments
import Reckon.Proofs.Numbering
import Reckon.Proofs.VisitedCode

/-!
# Variables are computed once

A variable is computed where it is defined, and from then on its name stands for the value. Its body is
not looked at again. This file shows it by writing the values into the document: with a literal for the
body of each variable, a run has the same entries and no failures, as a variable that failed is one
without a value.

* `Expr.literal`: an expression for a value, which it comes to everywhere (`yields_literal`).
* `Document.withLiterals`: the document with literals for the bodies of variables. All else that a run
  looks at is kept (`keeps_withLiterals`).
* `Document.variableValue`: the value of a variable in a run, which is what is left of the outcome at its
  statement (`variableValue_eq`).
* `Computes.withLiterals`: a statement with literals in place of bodies. It binds the same values.
* `Document.precomputed`, `Runs.precomputed`: the values of a run as literals, and a pass over them. This
  is by induction on the statements, none of which stands twice.
* `precomputed_entries`: the two runs.
-/

namespace Reckon

/-- An expression for a value: a number, or an error expression if there is none. -/
def Expr.literal : Value → Expr
  | some x => .number x
  | none => .error

theorem Expr.children_literal (value : Value) : (literal value).children = [] := by
  cases value <;> rfl

/-- The pass without the failures of variables. -/
def Pass.withoutFailures (pass : Pass) : Pass where
  env := pass.env
  results := { pass.results with failures := #[] }

namespace Document

variable {doc : Document} {env : Environment} {stack : CallStack} {values : DefId → Value}
  {number : DefId} {definition : Definition} {statement : Statement} {outcome : Outcome}
  {pass : Pass} {depth : ℕ}

theorem yields_literal {id : ExprId} {value : Value}
    (h : doc.exprs[id.index]? = some (.literal value)) : doc.Yields stack env id (.ok value) := by
  obtain ⟨enter, henter⟩ := doc.exists_evalWithin_eq stack.room
  apply yields_ok
  show doc.evalWithin stack.room env id stack = _
  rw [henter, Document.height]
  cases value with
  | some x =>
    rw [evalNode_of_number h]
    rfl
  | none =>
    rw [evalNode_of_error h]
    rfl

/-! ### Literals for bodies -/

/-- The variables in the order of their definitions. -/
def variableIds (doc : Document) : List DefId :=
  (NodeId.range .definition doc.definitions.size).filter fun number =>
    doc.definitions[number.index]?.any fun definition => !definition.isFunction

theorem mem_variableIds (hd : doc.definitions[number.index]? = some definition)
    (hf : definition.isFunction = false) : number ∈ doc.variableIds := by
  rw [variableIds, List.mem_filter, hd]
  refine ⟨NodeId.mem_range.2 (Array.getElem?_eq_some_iff.1 hd).1, ?_⟩
  simp [hf]

/-- The definition with its literal for a body, if it is that of a variable. The literals follow the
expressions of the document, in the order of the variables. -/
def literalBody (doc : Document) (number : DefId) (definition : Definition) : Definition :=
  if definition.isFunction then definition
  else { definition with body := ⟨doc.exprs.size + doc.variableIds.idxOf number⟩ }

theorem literalBody_name (doc : Document) (number : DefId) (definition : Definition) :
    (doc.literalBody number definition).name = definition.name := by
  unfold literalBody
  split <;> rfl

theorem literalBody_params (doc : Document) (number : DefId) (definition : Definition) :
    (doc.literalBody number definition).params = definition.params := by
  unfold literalBody
  split <;> rfl

/-- The document in which the body of each variable is a literal, in a new expression of its own. -/
def withLiterals (doc : Document) (values : DefId → Value) : Document :=
  { doc with
    exprs := doc.exprs ++ (doc.variableIds.map fun number => Expr.literal (values number)).toArray
    definitions := doc.definitions.mapIdx fun index => doc.literalBody ⟨index⟩ }

theorem getElem?_withLiterals (doc : Document) (values : DefId → Value) (number : DefId) :
    (doc.withLiterals values).definitions[number.index]? =
      doc.definitions[number.index]?.map (doc.literalBody number) :=
  Array.getElem?_mapIdx

theorem withLiterals_of_function (hd : doc.definitions[number.index]? = some definition)
    (hf : definition.isFunction = true) :
    (doc.withLiterals values).definitions[number.index]? = some definition := by
  rw [getElem?_withLiterals, hd, Option.map_some, literalBody, if_pos hf]

theorem withLiterals_of_variable (hd : doc.definitions[number.index]? = some definition)
    (hf : definition.isFunction = false) :
    (doc.withLiterals values).exprs[(doc.literalBody number definition).body.index]? =
      some (.literal (values number)) := by
  have hplace := List.getElem?_idxOf (mem_variableIds hd hf)
  rw [literalBody, if_neg (by simp [hf]), withLiterals,
    Array.getElem?_append_right (Nat.le_add_right _ _), Nat.add_sub_cancel_left,
    List.getElem?_toArray, List.getElem?_map, hplace]
  rfl

/-- Calls go by the same names as before. -/
theorem targetName?_withLiterals (target : CallTarget) :
    (doc.withLiterals values).targetName? target = doc.targetName? target := by
  cases target with
  | definition number =>
    rw [targetName?, targetName?, definition?, definition?, getElem?_withLiterals, Option.map_map]
    simp only [Function.comp_def, literalBody_name]
  | parameter number index =>
    rw [targetName?, targetName?, definition?, definition?, getElem?_withLiterals, Option.bind_map]
    simp only [Function.comp_def, literalBody_params]

theorem keeps_withLiterals (doc : Document) (values : DefId → Value) :
    doc.Keeps (doc.withLiterals values) where
  expr_eq := by
    intro id expr _ hexpr
    have hlt := (Array.getElem?_eq_some_iff.1 hexpr).1
    rw [withLiterals, Array.getElem?_append_left hlt]
    exact hexpr
  name_eq := by
    intro id target args _ _
    cases target with
    | none => rfl
    | some target => exact targetName?_withLiterals target
  function_eq _ hd hf := withLiterals_of_function hd hf
  text_eq _ _ := rfl

theorem child_of_withLiterals {whole part : ExprId}
    (h : (doc.withLiterals values).Child whole part) : doc.Child whole part := by
  obtain ⟨expr, hexpr, hpart⟩ := h
  rw [withLiterals, Array.getElem?_append] at hexpr
  split at hexpr
  · exact ⟨expr, hexpr, hpart⟩
  · rw [List.getElem?_toArray, List.getElem?_map] at hexpr
    obtain ⟨number, -, rfl⟩ := Option.map_eq_some_iff.1 hexpr
    rw [Expr.children_literal] at hpart
    exact absurd hpart List.not_mem_nil

theorem acyclic_withLiterals (h : doc.Acyclic) : (doc.withLiterals values).Acyclic := by
  have hcontains {whole part : ExprId} (hc : (doc.withLiterals values).Contains whole part) :
      doc.Contains whole part := by
    induction hc with
    | child hc => exact .child (child_of_withLiterals hc)
    | deeper hc _ ih => exact .deeper (child_of_withLiterals hc) ih
  intro id hc
  exact h id (hcontains hc)

/-! ### The values of variables -/

/-- The value of a variable in a run with errors recorded: what its name stands for after the statements
up to its own. -/
def variableValue (doc : Document) (depth : ℕ) (number : DefId) : Value :=
  let statements := doc.statements.toList.takeWhile (· ≠ .definition number)
  match doc.runList .perEvaluation (statements ++ [.definition number]) (.new depth) with
  | .error _ _ => none
  | .ok pass _ =>
    match doc.definitions[number.index]?.bind fun definition => pass.env.lookup definition.name with
    | some (.value value) => value
    | _ => none

theorem takeWhile_ne_of_notMem {before after : List Statement} (h : statement ∉ before) :
    (before ++ statement :: after).takeWhile (· ≠ statement) = before := by
  have hne : ∀ s ∈ before, decide (s ≠ statement) = true := by
    intro s hs
    rw [decide_eq_true_eq]
    intro heq
    exact h (heq ▸ hs)
  rw [List.takeWhile_append_of_pos hne, List.takeWhile_cons_of_neg (by simp), List.append_nil]

/-- The value of a variable is what is left of the outcome at its statement. -/
theorem variableValue_eq {before after : List Statement}
    (hstatements : doc.statements.toList = before ++ .definition number :: after)
    (hnotMem : .definition number ∉ before)
    (hruns : doc.Runs .perEvaluation (.new depth) before pass)
    (hc : doc.Computes (.new depth) pass.env (.definition number) outcome)
    (hd : doc.definitions[number.index]? = some definition) (hf : definition.isFunction = false) :
    doc.variableValue depth number = outcome.value := by
  have hlater := (hruns.concat hc (ErrorPolicy.admits_perEvaluation outcome)).runList
  simp only [variableValue, hstatements, takeWhile_ne_of_notMem hnotMem, hlater, hd,
    Option.bind_some, settle, settleEnv_of_definition hd, hf, Environment.lookup_define_self]
  rfl

/-! ### The two runs -/

/-- **A statement with literals in place of bodies** does what it did before, and no variable fails. -/
theorem Computes.withLiterals (hc : doc.Computes stack pass.env statement outcome)
    (hw : doc.Walkable) (henv : pass.env.Functions doc.Introduces) (hmem : statement ∈ doc.statements)
    (hvalues : ∀ number definition, statement = .definition number →
      doc.definitions[number.index]? = some definition → definition.isFunction = false →
      values number = outcome.value) :
    ∃ outcome', (doc.withLiterals values).Computes stack pass.env statement outcome' ∧
      (doc.withLiterals values).settle pass.withoutFailures statement outcome' =
        (doc.settle pass statement outcome).withoutFailures := by
  cases hc with
  | function hd hf =>
    have hd' := @withLiterals_of_function _ values _ _ hd hf
    refine ⟨_, .function hd' hf, ?_⟩
    rw [settle, settle, settleEnv_of_definition hd', settleEnv_of_definition hd]
    rfl
  | @assignment number definition outcome hd hf hy =>
    have hd' : (doc.withLiterals values).definitions[number.index]? =
        some (doc.literalBody number definition) := by
      rw [getElem?_withLiterals, hd, Option.map_some]
    have hf' : (doc.literalBody number definition).isFunction = false := by
      rw [Definition.isFunction, literalBody_params]
      exact hf
    have hliteral := @withLiterals_of_variable _ values _ _ hd hf
    rw [hvalues number definition rfl hd hf] at hliteral
    refine ⟨.ok outcome.value, .assignment hd' hf' (yields_literal hliteral), ?_⟩
    rw [settle, settle, settleEnv_of_definition hd', settleEnv_of_definition hd, hf', hf,
      literalBody_name]
    cases outcome <;> rfl
  | evaluation he hy =>
    have hy' := hy.of_keeps hw (acyclic_withLiterals hw.acyclic) (keeps_withLiterals doc values)
      henv (visited_expr hmem he)
    refine ⟨outcome, .evaluation he hy', ?_⟩
    rw [settle, settle, Results.settle_evaluation, Results.settle_evaluation]
    rfl

/-- The document with the values of its variables written into it. -/
def precomputed (doc : Document) (depth : ℕ) : Document :=
  doc.withLiterals (doc.variableValue depth)

/-- **A pass with the values written into the document** finds the same, but for the failures. -/
theorem Runs.precomputed {statements : List Statement}
    (hruns : doc.Runs .perEvaluation (.new depth) statements pass) (hw : doc.Walkable)
    (hnodup : doc.statements.toList.Nodup) (hinitial : statements <+: doc.statements.toList) :
    (doc.precomputed depth).Runs .perEvaluation (.new depth) statements pass.withoutFailures := by
  induction hruns with
  | nil => exact .nil
  | @concat statements earlier statement outcome hearlier hc _ ih =>
    obtain ⟨after, hafter⟩ := hinitial
    have hsplit : doc.statements.toList = statements ++ statement :: after := by
      rw [← hafter, List.append_assoc, List.singleton_append]
    have hnotMem : statement ∉ statements := by
      rw [hsplit, List.nodup_middle, List.nodup_cons] at hnodup
      exact fun hmem => hnodup.1 (List.mem_append_left _ hmem)
    obtain ⟨hbefore, hrest⟩ := mem_statements_of_split hsplit
    -- The statement is met here for the first time, so this is where its variable gets its value.
    have hvalues : ∀ number definition, statement = .definition number →
        doc.definitions[number.index]? = some definition → definition.isFunction = false →
        doc.variableValue depth number = outcome.value := by
      intro number definition hstatement hd hf
      subst hstatement
      exact variableValue_eq hsplit hnotMem hearlier hc hd hf
    obtain ⟨outcome', hc', hsettle⟩ := hc.withLiterals hw (hearlier.introduced hbefore)
      (hrest statement List.mem_cons_self) hvalues
    rw [← hsettle]
    exact (ih ⟨statement :: after, hsplit.symm⟩).concat hc' (ErrorPolicy.admits_perEvaluation outcome')

/-- **Variables are computed once.** Let a script build a walkable document. Write for the body of each
variable a literal of the value that it gets in a run with errors recorded, and an error expression if it
gets none or fails. Then for every limit on the depth of calls both documents give results, with the same
entries, and no variable of the second fails. -/
theorem precomputed_entries (script : List Step) (hw : (built script).Walkable) (depth : ℕ) :
    ∃ results results',
      (Evaluator.new (built script)
        { maxCallDepth := depth, errorPolicy := .perEvaluation }).run.1 = .ok results ∧
      (Evaluator.new ((built script).precomputed depth)
        { maxCallDepth := depth, errorPolicy := .perEvaluation }).run.1 = .ok results' ∧
      results'.entries = results.entries ∧ results'.failures = #[] := by
  obtain ⟨pass, hruns⟩ := hw.exists_runs (.new depth) fun _ hs => Array.mem_toList_iff.1 hs
  have hruns' := hruns.precomputed hw (numbered_built script).nodup_statements (List.prefix_refl _)
  exact ⟨pass.results, pass.withoutFailures.results, run_eq_ok.2 ⟨pass, hruns, rfl⟩,
    run_eq_ok.2 ⟨_, hruns', rfl⟩, rfl, rfl⟩

/-- The variable `x` is two at first and three later, the body of the function `f` is `x`, `y` is `f 2`
between the two, and `z` is a call without a target. The evaluations are `f 2`, `y` and `z`. -/
def redefinedScript : List Step := [
  .addExpr (.number ⟨0x4000000000000000⟩),
  .addExpr (.number ⟨0x4008000000000000⟩),
  .define "x" [] ⟨0⟩,
  .addExpr (.call (some (.definition ⟨0⟩)) []),
  .define "f" ["a"] ⟨3⟩,
  .addExpr (.call (some (.definition ⟨1⟩)) [⟨0⟩]),
  .define "y" [] ⟨5⟩,
  .addExpr (.call none []),
  .define "z" [] ⟨7⟩,
  .define "x" [] ⟨1⟩,
  .evaluate ⟨5⟩ none,
  .addExpr (.call (some (.definition ⟨2⟩)) []),
  .evaluate ⟨10⟩ none,
  .addExpr (.call (some (.definition ⟨3⟩)) []),
  .evaluate ⟨11⟩ none]

/-- The value of `y` is that of its time, also where it is written into the document, and the failure of
`z` is gone. -/
theorem redefinedScript_precomputed :
    (built redefinedScript).Walkable ∧
      (built redefinedScript).variableIds.map ((built redefinedScript).variableValue 1) =
        [some ⟨0x4000000000000000⟩, some ⟨0x4000000000000000⟩, none, some ⟨0x4008000000000000⟩] ∧
      ∃ results results',
        (Evaluator.new (built redefinedScript)
          { maxCallDepth := 1, errorPolicy := .perEvaluation }).run.1 = .ok results ∧
        (Evaluator.new ((built redefinedScript).precomputed 1)
          { maxCallDepth := 1, errorPolicy := .perEvaluation }).run.1 = .ok results' ∧
        results.value ⟨0⟩ = .ok (some ⟨0x4008000000000000⟩) ∧
        results.value ⟨1⟩ = .ok (some ⟨0x4000000000000000⟩) ∧
        results.failures = #[(⟨3⟩, .unlinkedReference ⟨7⟩)] ∧
        results'.entries = results.entries ∧ results'.failures = #[] := by
  have hsupplied : Step.Supplied redefinedScript := by decide +kernel
  have hw := hsupplied.ordered.1.wellFormed.walkable
  obtain ⟨results, results', hrun, hrun', hentries, hfailures⟩ :=
    precomputed_entries redefinedScript hw 1
  have hresults : (Evaluator.new (built redefinedScript)
      { maxCallDepth := 1, errorPolicy := .perEvaluation }).run.1 = .ok
        (Results.empty.recordFailure ⟨3⟩ (.unlinkedReference ⟨7⟩)
          |>.record ⟨0⟩ (.ok (some ⟨0x4008000000000000⟩))
          |>.record ⟨1⟩ (.ok (some ⟨0x4000000000000000⟩))
          |>.record ⟨2⟩ (.ok none)) := by
    decide +kernel
  refine ⟨hw, by decide +kernel, results, results', hrun, hrun', ?_⟩
  rw [hrun] at hresults
  cases hresults
  exact ⟨rfl, rfl, rfl, hentries, hfailures⟩

end Document

end Reckon
