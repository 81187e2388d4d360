import Reckon.Proofs.Alignment

/-!
# Names count by identity

An evaluation compares names and binds them, and never looks at what they are. So other names do as
well, as long as different names stay different. This file compares a document with one in which the
names of definitions and parameters have been replaced throughout.

* `EvalError.withoutName`, `Results.withoutNames`: what is left of errors and results if the texts of
  names do not count.
* `Environment.Renamed`: an environment binds the new names as another one binds the old ones. This is
  kept when a name is defined (`Renamed.define`) and when parameters are bound (`Renamed.bindAll`), which
  may repeat one another or hide a function.
* `Document.rename`: the document with the new names, and any texts for them.
* `Runs.exists_renamed`: two passes side by side.
* `rename_outcomes`: the runs of the two documents, statement by statement.
-/

namespace Reckon

/-! ### Without the texts of names -/

/-- The error without the text of the name that it is about. -/
def EvalError.withoutName : EvalError → EvalError
  | .arityMismatch _ definition call expected got => .arityMismatch "" definition call expected got
  | .unlinkedReference call => .unlinkedReference call
  | .recursionLimit _ call depth => .recursionLimit "" call depth

/-- The value, or the error without its name. -/
def Outcome.withoutName : Outcome → Outcome
  | .ok value => .ok value
  | .error error => .error error.withoutName

theorem Outcome.Agree.withoutName_eq {outcome outcome' : Outcome}
    (h : outcome.Agree (fun error error' => error'.withoutName = error.withoutName) outcome') :
    outcome'.withoutName = outcome.withoutName := by
  cases h with
  | value value => rfl
  | error h => rw [withoutName, withoutName, h]

/-- The results with all errors without their names. -/
def Results.withoutNames (results : Results) : Results where
  entries := results.entries.map fun entry => { entry with outcome := entry.outcome.withoutName }
  index := results.index
  failures := results.failures.map fun failure => (failure.1, failure.2.withoutName)
  index_iff evaluation place := by
    have hmap : (results.entries.map fun entry =>
        { entry with outcome := entry.outcome.withoutName }).map Entry.evaluation =
          results.entries.map Entry.evaluation := by
      simp
    rw [results.index_iff]
    exact ⟨fun h => h.of_map_eq hmap, fun h => h.of_map_eq hmap.symm⟩

theorem Results.withoutNames_settle (results : Results) (statement : Statement) (outcome : Outcome) :
    (results.settle statement outcome).withoutNames =
      results.withoutNames.settle statement outcome.withoutName := by
  cases statement with
  | evaluation number =>
    rw [settle_evaluation, settle_evaluation]
    apply Results.ext <;> simp [withoutNames]
  | definition number =>
    cases outcome with
    | ok value => rfl
    | error error =>
      show (results.recordFailure number error).withoutNames =
        results.withoutNames.recordFailure number error.withoutName
      apply Results.ext <;> simp [withoutNames]

/-! ### Environments under new names -/

namespace Environment

variable {ρ : Name → Name} {env env' : Environment}

/-- `env'` binds the new names as `env` binds the old ones. -/
def Renamed (ρ : Name → Name) (env env' : Environment) : Prop :=
  ∀ name, env'.lookup (ρ name) = env.lookup name

theorem renamed_empty (ρ : Name → Name) : empty.Renamed ρ empty := by
  intro name
  rw [lookup_empty, lookup_empty]

theorem Renamed.define (h : env.Renamed ρ env') (hρ : Function.Injective ρ) (name : Name)
    (binding : Binding) : (env.define name binding).Renamed ρ (env'.define (ρ name) binding) := by
  intro other
  rw [lookup_define, lookup_define, h other]
  -- a name that is not the defined one must not become it, which is where `ρ` has to be injective
  by_cases heq : name = other
  · rw [if_pos heq, if_pos (congrArg ρ heq)]
  · rw [if_neg heq, if_neg (hρ.ne heq)]

theorem Renamed.bindAll (h : env.Renamed ρ env') (hρ : Function.Injective ρ) (names : List Name)
    (values : List Value) :
    (env.bindAll names values).Renamed ρ (env'.bindAll (names.map ρ) values) := by
  rw [Environment.bindAll, Environment.bindAll, List.zip_map_left]
  generalize names.zip values = pairs
  induction pairs generalizing env env' with
  | nil => exact h
  | cons pair pairs ih => exact ih (h.define hρ pair.1 (.value pair.2))

end Environment

/-! ### Documents under new names -/

/-- The definition with new names for itself and for its parameters. -/
def Definition.rename (ρ : Name → Name) (definition : Definition) : Definition where
  name := ρ definition.name
  params := definition.params.map ρ
  body := definition.body

namespace Definition

variable (ρ : Name → Name) (definition : Definition)

@[simp]
theorem arity_rename : (definition.rename ρ).arity = definition.arity := by
  simp [arity, rename]

@[simp]
theorem isFunction_rename : (definition.rename ρ).isFunction = definition.isFunction := by
  simp [isFunction, rename]

end Definition

/-- The document with new names for definitions and parameters, and with these texts for names. -/
def Document.rename (doc : Document) (ρ : Name → Name) (interner : Interner) : Document :=
  { doc with interner, definitions := doc.definitions.map (Definition.rename ρ) }

namespace Document

variable {doc : Document} {ρ : Name → Name} {interner : Interner}

theorem getElem?_rename (number : DefId) :
    (doc.rename ρ interner).definitions[number.index]? =
      doc.definitions[number.index]?.map (Definition.rename ρ) :=
  Array.getElem?_map ..

theorem targetName?_rename (target : CallTarget) :
    (doc.rename ρ interner).targetName? target = (doc.targetName? target).map ρ := by
  cases target with
  | definition number =>
    rw [targetName?, targetName?, definition?, definition?, getElem?_rename]
    cases doc.definitions[number.index]? <;> rfl
  | parameter number index =>
    rw [targetName?, targetName?, definition?, definition?, getElem?_rename]
    cases doc.definitions[number.index]? with
    | none => rfl
    | some definition => exact List.getElem?_map ..

end Document

/-- A document and the same under new names. Only the texts of names can tell their errors apart. -/
def Alignment.renaming (doc : Document) {ρ : Name → Name} (hρ : Function.Injective ρ)
    (interner : Interner) : Alignment doc (doc.rename ρ interner) where
  name := ρ
  env := fun env env' => env.Renamed ρ env' ∧ env.Known doc
  error := fun error error' => error'.withoutName = error.withoutName
  exprs_eq := rfl
  targetName?_eq := Document.targetName?_rename
  known henv := henv.2
  lookup_eq henv _ := henv.1 _
  function := by
    intro env env' call function definition args henv hcalls
    refine ⟨definition.rename ρ, ?_, definition.arity_rename ρ, rfl, ?_, ?_, fun _ => rfl⟩
    · rw [Document.getElem?_rename, hcalls.definition_eq]
      rfl
    · exact fun values => ⟨henv.1.bindAll hρ _ values, henv.2.bindAll _ values⟩
    · intro got
      rw [definition.arity_rename ρ]
      rfl
  refl _ := rfl

/-! ### Two passes side by side -/

/-- The second pass has bound the new names as the first one has bound the old ones, with the same
results but for the texts of names. -/
structure Pass.Renamed (ρ : Name → Name) (pass pass' : Pass) : Prop where
  env : pass.env.Renamed ρ pass'.env
  results_eq : pass'.results.withoutNames = pass.results.withoutNames

namespace Document

variable {doc : Document} {ρ : Name → Name} {interner : Interner} {stack : CallStack}
  {policy : ErrorPolicy} {env env' : Environment} {statement : Statement} {outcome outcome' : Outcome}
  {statements : List Statement} {pass : Pass}

/-- A statement comes to the same outcome under new names. -/
theorem Computes.exists_renamed (hc : doc.Computes stack env statement outcome) (h : doc.WellFormed)
    (hρ : Function.Injective ρ) (interner : Interner) (henv : env.Renamed ρ env')
    (hk : env.Known doc) :
    ∃ outcome', (doc.rename ρ interner).Computes stack env' statement outcome' ∧
      outcome.Agree (Alignment.renaming doc hρ interner).error outcome' := by
  apply (Alignment.renaming doc hρ interner).exists_computes h ⟨henv, hk⟩ hc rfl
  intro number definition _ hd
  refine ⟨definition.rename ρ, ?_, definition.isFunction_rename ρ, rfl⟩
  rw [getElem?_rename, hd]
  rfl

/-- The name that a statement binds is a new one, and stands for the same. -/
theorem renamed_settleEnv (hρ : Function.Injective ρ) (henv : env.Renamed ρ env')
    (hvalue : outcome'.value = outcome.value) :
    (doc.settleEnv env statement outcome).Renamed ρ
      ((doc.rename ρ interner).settleEnv env' statement outcome') := by
  cases statement with
  | evaluation number => exact henv
  | definition number =>
    rw [settleEnv, settleEnv, getElem?_rename]
    cases doc.definitions[number.index]? with
    | none => exact henv
    | some definition =>
      show (env.define definition.name _).Renamed ρ
        (env'.define (ρ definition.name) (if (definition.rename ρ).isFunction then _ else _))
      rw [definition.isFunction_rename ρ, hvalue]
      exact henv.define hρ definition.name _

/-- **Two passes keep environments that correspond**, and results that are the same without names. -/
theorem Runs.exists_renamed (hruns : doc.Runs policy stack statements pass) (h : doc.WellFormed)
    (hρ : Function.Injective ρ) (interner : Interner)
    (hmem : ∀ statement ∈ statements, statement ∈ doc.statements) :
    ∃ pass', (doc.rename ρ interner).Runs policy stack statements pass' ∧ pass.Renamed ρ pass' := by
  apply hruns.exists_related (Pass.Renamed ρ)
  · exact ⟨Environment.renamed_empty ρ, rfl⟩
  · intro before statement earlier earlier' outcome hbefore hearlier _ hrenamed hc ha
    have hk : earlier.env.Known doc :=
      hearlier.known fun s hs => hmem s (hbefore s (List.mem_append_left _ hs))
    obtain ⟨outcome', hc', hagree⟩ := hc.exists_renamed h hρ interner hrenamed.env hk
    refine ⟨outcome', hc', hagree.admits ha, renamed_settleEnv hρ hrenamed.env hagree.value_eq, ?_⟩
    show (earlier'.results.settle statement outcome').withoutNames =
      (earlier.results.settle statement outcome).withoutNames
    rw [Results.withoutNames_settle, Results.withoutNames_settle, hrenamed.results_eq,
      hagree.withoutName_eq]

/-- An error that ends a pass ends the other one too, at the same statement. -/
theorem Fails.exists_renamed {error : EvalError} (hfails : doc.Fails policy stack statements error)
    (h : doc.WellFormed) (hρ : Function.Injective ρ) (interner : Interner)
    (hmem : ∀ statement ∈ statements, statement ∈ doc.statements) :
    ∃ error', (doc.rename ρ interner).Fails policy stack statements error' ∧
      error'.withoutName = error.withoutName := by
  obtain ⟨before, statement, after, earlier, rfl, hruns, hc⟩ := hfails
  have hbefore : ∀ s ∈ before, s ∈ doc.statements :=
    fun s hs => hmem s (List.mem_append_left _ hs)
  obtain ⟨earlier', hruns', hrenamed⟩ := hruns.exists_renamed h hρ interner hbefore
  obtain ⟨outcome', hc', hagree⟩ := hc.exists_renamed h hρ interner hrenamed.env (hruns.known hbefore)
  cases hagree with
  | @error _ error' herror =>
    exact ⟨error', ⟨before, statement, after, earlier', rfl, hruns', hc'⟩, herror⟩

/-- **Names count by identity.** Give the definitions and parameters of a well-formed document new
names, different ones for different names, with any texts. Then under both policies and with any limit
on the depth of calls both runs give results or both end with an error, and these are the same but for
the texts of names. It is so statement by statement: where a pass over the statements before one of them
gets through, it does so in the other document, it has bound the new names there as the old ones here,
and the statement comes to the same value or to errors that differ in the text of a name only. -/
theorem rename_outcomes (h : doc.WellFormed) (hρ : Function.Injective ρ) (interner : Interner)
    (policy : ErrorPolicy) (depth : ℕ) :
    ((∃ results results',
        (Evaluator.new doc { maxCallDepth := depth, errorPolicy := policy }).run.1 = .ok results ∧
        (Evaluator.new (doc.rename ρ interner)
          { maxCallDepth := depth, errorPolicy := policy }).run.1 = .ok results' ∧
        results'.withoutNames = results.withoutNames) ∨
      ∃ error error',
        (Evaluator.new doc { maxCallDepth := depth, errorPolicy := policy }).run.1 =
          .error (.error error) ∧
        (Evaluator.new (doc.rename ρ interner)
          { maxCallDepth := depth, errorPolicy := policy }).run.1 = .error (.error error') ∧
        error'.withoutName = error.withoutName) ∧
      ∀ (before : List Statement) (statement : Statement) (after : List Statement) (pass : Pass),
        doc.statements.toList = before ++ statement :: after →
        doc.runList policy before (.new depth) = .ok pass (.new depth) →
        ∃ pass' outcome outcome',
          (doc.rename ρ interner).runList policy before (.new depth) = .ok pass' (.new depth) ∧
          pass.Renamed ρ pass' ∧ doc.Computes (.new depth) pass.env statement outcome ∧
          (doc.rename ρ interner).Computes (.new depth) pass'.env statement outcome' ∧
          outcome'.withoutName = outcome.withoutName := by
  have hmem : ∀ statement ∈ doc.statements.toList, statement ∈ doc.statements :=
    fun _ hs => Array.mem_toList_iff.1 hs
  constructor
  · rcases @Evaluator.run_answers (.new doc { maxCallDepth := depth, errorPolicy := policy }) h with
      ⟨results, hrun⟩ | ⟨error, hrun⟩
    · obtain ⟨pass, hruns, rfl⟩ := run_eq_ok.1 hrun
      obtain ⟨pass', hruns', hrenamed⟩ := hruns.exists_renamed h hρ interner hmem
      exact Or.inl ⟨pass.results, pass'.results, hrun, run_eq_ok.2 ⟨pass', hruns', rfl⟩,
        hrenamed.results_eq⟩
    · obtain ⟨next, hstop⟩ := run_eq_error.1 hrun
      obtain ⟨error', hfails', herror⟩ :=
        (fails_of_error hstop).exists_renamed h hρ interner hmem
      cases policy with
      | abortPass =>
        exact Or.inr ⟨error, error', hrun, run_eq_error.2 ⟨_, hfails'.runList⟩, herror⟩
      | perEvaluation =>
        -- where errors are recorded, none ends the pass
        obtain ⟨pass, hruns⟩ := exists_runs h (.new depth) hmem
        rw [hruns.runList] at hstop
        cases hstop
  · intro before statement after pass hsplit hrun
    have hruns := (runs_of_runList hrun).2
    obtain ⟨hbefore, hrest⟩ := mem_statements_of_split hsplit
    obtain ⟨pass', hruns', hrenamed⟩ := hruns.exists_renamed h hρ interner hbefore
    obtain ⟨outcome, hc⟩ := h.walkable.exists_computes (hruns.introduced hbefore)
      (hrest statement List.mem_cons_self) (.new depth)
    obtain ⟨outcome', hc', hagree⟩ :=
      hc.exists_renamed h hρ interner hrenamed.env (hruns.known hbefore)
    exact ⟨pass', outcome, outcome', hruns'.runList, hrenamed, hc, hc', hagree.withoutName_eq⟩

/-- A function with a parameter of its own name, a variable named like the other parameter, and calls
with two arguments and with one. -/
def ownParameter : Document where
  interner := ((Interner.new.intern "f").2.intern "x").2
  exprs := #[.number ⟨0x4008000000000000⟩, .call (some (.parameter ⟨0⟩ 0)) [],
    .call (some (.parameter ⟨0⟩ 1)) [], .binary .mul ⟨1⟩ ⟨2⟩, .call (some (.definition ⟨0⟩)) [⟨0⟩, ⟨0⟩],
    .call (some (.definition ⟨1⟩)) [], .call (some (.definition ⟨0⟩)) [⟨5⟩]]
  definitions := #[{ name := ⟨1⟩, params := [⟨1⟩, ⟨2⟩], body := ⟨3⟩ },
    { name := ⟨2⟩, params := [], body := ⟨4⟩ }]
  evaluations := #[{ expr := ⟨5⟩, source := none }, { expr := ⟨6⟩, source := none }]
  statements := #[.definition ⟨0⟩, .definition ⟨1⟩, .evaluation ⟨0⟩, .evaluation ⟨1⟩]

/-- Nine is found under both names, and the call with one argument is an error about `f` or about a name
without a text. -/
theorem ownParameter_renamed :
    ownParameter.WellFormed ∧ Function.Injective (fun name : Name => (⟨name.index + 1⟩ : Name)) ∧
      ∃ results results',
        (Evaluator.new ownParameter { maxCallDepth := 1, errorPolicy := .perEvaluation }).run.1 =
          .ok results ∧
        (Evaluator.new (ownParameter.rename (fun name => ⟨name.index + 1⟩) .new)
          { maxCallDepth := 1, errorPolicy := .perEvaluation }).run.1 = .ok results' ∧
        results'.withoutNames = results.withoutNames ∧
        results.value ⟨0⟩ = .ok (some ⟨0x4022000000000000⟩) ∧
        results.error? ⟨1⟩ = .ok (some (.arityMismatch "f" ⟨0⟩ ⟨6⟩ 2 1)) ∧
        results'.error? ⟨1⟩ = .ok (some (.arityMismatch "" ⟨0⟩ ⟨6⟩ 2 1)) := by
  have hw : ownParameter.WellFormed :=
    wellFormed_of_earlier (by decide) (by decide) (by decide) (by decide)
  have hρ : Function.Injective (fun name : Name => (⟨name.index + 1⟩ : Name)) := by
    intro a b heq
    cases a
    cases b
    simpa using heq
  have herror : (Evaluator.new (ownParameter.rename (fun name => ⟨name.index + 1⟩) .new)
      { maxCallDepth := 1, errorPolicy := .perEvaluation }).run.1.map (·.error? ⟨1⟩) =
        .ok (.ok (some (.arityMismatch "" ⟨0⟩ ⟨6⟩ 2 1))) := by
    decide +kernel
  refine ⟨hw, hρ, ?_⟩
  rcases (rename_outcomes hw hρ .new .perEvaluation 1).1 with
    ⟨results, results', hrun, hrun', heq⟩ | ⟨error, error', hrun, -, -⟩
  · rw [hrun'] at herror
    refine ⟨results, results', hrun, hrun', heq, ?_, ?_, Except.ok.inj herror⟩
    · cases hrun
      rfl
    · cases hrun
      rfl
  · cases hrun

end Document

end Reckon
