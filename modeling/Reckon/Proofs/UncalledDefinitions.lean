import Reckon.Proofs.Alignment

/-!
# Definitions that nothing calls

A definition matters to the others by its name alone, and only where a call goes by this name. This file
compares two documents that differ in the bodies of definitions whose names no call goes by, neither
through the definition itself nor through another definition or a parameter of the same name. What such
a body comes to, an error included, shows in the record of failures and nowhere else.

* `Environment.AgreeOn`: two environments bind these names alike. Other names can be defined in
  different ways (`AgreeOn.define_other`).
* `Results.AgreeExcept`: the same entries, and the same failures but for these definitions.
* `Document.SameButBodies`: the documents differ in the bodies of these definitions at most.
* `Runs.exists_unaffected`: two passes side by side agree on the names that calls go by.
* `uncalled_bodies_ignored`: the runs of the two documents.
-/

namespace Reckon

/-- The statement is one of these definitions. -/
def Statement.isAmong (changed : DefId → Bool) : Statement → Bool
  | .definition number => changed number
  | .evaluation _ => false

/-! ### Environments that agree on some names -/

namespace Environment

variable {names : Set Name} {env env' : Environment}

/-- The names stand for the same in both environments. -/
def AgreeOn (names : Set Name) (env env' : Environment) : Prop :=
  ∀ name ∈ names, env'.lookup name = env.lookup name

theorem AgreeOn.refl (names : Set Name) (env : Environment) : env.AgreeOn names env :=
  fun _ _ => rfl

theorem AgreeOn.define (h : env.AgreeOn names env') (name : Name) (binding : Binding) :
    (env.define name binding).AgreeOn names (env'.define name binding) := by
  intro other hother
  rw [lookup_define, lookup_define, h other hother]

theorem AgreeOn.define_other {name : Name} (h : env.AgreeOn names env') (hname : name ∉ names)
    (binding binding' : Binding) :
    (env.define name binding).AgreeOn names (env'.define name binding') := by
  intro other hother
  have hne : name ≠ other := fun heq => hname (heq ▸ hother)
  rw [lookup_define, lookup_define, if_neg hne, if_neg hne, h other hother]

theorem AgreeOn.bindAll (h : env.AgreeOn names env') (params : List Name) (values : List Value) :
    (env.bindAll params values).AgreeOn names (env'.bindAll params values) := by
  rw [Environment.bindAll, Environment.bindAll]
  generalize params.zip values = pairs
  induction pairs generalizing env env' with
  | nil => exact h
  | cons pair pairs ih => exact ih (h.define pair.1 (.value pair.2))

end Environment

/-! ### Results that agree but for some definitions -/

namespace Results

variable {a b : Results} {changed : DefId → Bool}

/-- The variables that could not be computed, without these definitions. -/
def failuresExcept (changed : DefId → Bool) (results : Results) : List (DefId × EvalError) :=
  results.failures.toList.filter fun failure => !changed failure.1

/-- The results differ in the failures of these definitions at most. -/
structure AgreeExcept (changed : DefId → Bool) (a b : Results) : Prop where
  entries_eq : b.entries = a.entries
  failures_eq : b.failuresExcept changed = a.failuresExcept changed

theorem entries_settle_definition (results : Results) (number : DefId) (outcome : Outcome) :
    (results.settle (.definition number) outcome).entries = results.entries := by
  cases outcome <;> rfl

theorem failuresExcept_recordFailure (results : Results) (number : DefId) (error : EvalError) :
    (results.recordFailure number error).failuresExcept changed =
      results.failuresExcept changed ++ if changed number then [] else [(number, error)] := by
  rw [failuresExcept, recordFailure, Array.toList_push, List.filter_append]
  cases h : changed number <;> simp [failuresExcept, h]

theorem failuresExcept_settle {number : DefId} (hchanged : changed number = true) (results : Results)
    (outcome : Outcome) :
    (results.settle (.definition number) outcome).failuresExcept changed =
      results.failuresExcept changed := by
  cases outcome with
  | ok value => rfl
  | error error =>
    show (results.recordFailure number error).failuresExcept changed = _
    rw [failuresExcept_recordFailure, if_pos hchanged, List.append_nil]

/-- The definitions in question may have come to different outcomes. -/
theorem AgreeExcept.settle {statement : Statement} {outcome outcome' : Outcome}
    (h : AgreeExcept changed a b) (houtcome : statement.isAmong changed = false → outcome' = outcome) :
    AgreeExcept changed (a.settle statement outcome) (b.settle statement outcome') := by
  cases statement with
  | evaluation number =>
    rw [houtcome rfl, settle_evaluation, settle_evaluation]
    refine ⟨?_, h.failures_eq⟩
    rw [entries_record, entries_record, h.entries_eq]
  | definition number =>
    refine ⟨?_, ?_⟩
    · rw [entries_settle_definition, entries_settle_definition, h.entries_eq]
    · cases hchanged : changed number with
      | true => rw [failuresExcept_settle hchanged, failuresExcept_settle hchanged, h.failures_eq]
      | false =>
        rw [houtcome hchanged]
        cases outcome with
        | ok value => exact h.failures_eq
        | error error =>
          show (b.recordFailure number error).failuresExcept changed =
            (a.recordFailure number error).failuresExcept changed
          rw [failuresExcept_recordFailure, failuresExcept_recordFailure, h.failures_eq]

end Results

/-! ### Documents with other bodies -/

namespace Document

variable {doc doc' : Document} {changed : DefId → Bool} {env env' : Environment} {stack : CallStack}
  {statement : Statement} {outcome : Outcome} {statements : List Statement} {pass : Pass}

/-- The names that calls go by, wherever these stand. -/
def calledNames (doc : Document) : Set Name :=
  {name | ∃ call, doc.calledName? call = some name}

/-- The documents differ in the bodies of these definitions at most. -/
structure SameButBodies (changed : DefId → Bool) (doc doc' : Document) : Prop where
  interner_eq : doc'.interner = doc.interner
  exprs_eq : doc'.exprs = doc.exprs
  evaluations_eq : doc'.evaluations = doc.evaluations
  statements_eq : doc'.statements = doc.statements
  size_eq : doc'.definitions.size = doc.definitions.size
  definition_eq : ∀ {number : DefId} {definition : Definition},
    doc.definitions[number.index]? = some definition →
    ∃ body, doc'.definitions[number.index]? = some { definition with body } ∧
      (changed number = false → body = definition.body)

/-- No call goes by the name of one of these definitions. -/
def Uncalled (doc : Document) (changed : DefId → Bool) : Prop :=
  ∀ (number : DefId) (definition : Definition), changed number = true →
    doc.definitions[number.index]? = some definition → definition.name ∉ doc.calledNames

/-- That nothing calls some definitions can be checked by going through the expressions. -/
theorem uncalled_of_exprs
    (h : ∀ i (_ : i < doc.definitions.size), changed ⟨i⟩ = true →
      ∀ j (_ : j < doc.exprs.size), doc.calledName? ⟨j⟩ ≠ some doc.definitions[i].name) :
    doc.Uncalled changed := by
  intro number definition hchanged hd hcalled
  obtain ⟨call, hname⟩ := hcalled
  obtain ⟨hi, rfl⟩ := Array.getElem?_eq_some_iff.1 hd
  have hj : call.index < doc.exprs.size := by
    by_contra hle
    rw [calledName?, Array.getElem?_eq_none_iff.2 (Nat.not_lt.1 hle)] at hname
    cases hname
  exact h number.index hi hchanged call.index hj hname

theorem SameButBodies.definition?_cases (h : doc.SameButBodies changed doc') (number : DefId) :
    (doc.definition? number = none ∧ doc'.definition? number = none) ∨
      ∃ definition body, doc.definition? number = some definition ∧
        doc'.definition? number = some { definition with body } := by
  cases hd : doc.definition? number with
  | none =>
    have hle : doc.definitions.size ≤ number.index := Array.getElem?_eq_none_iff.1 hd
    rw [← h.size_eq] at hle
    exact Or.inl ⟨rfl, Array.getElem?_eq_none_iff.2 hle⟩
  | some definition =>
    obtain ⟨body, hd', -⟩ := h.definition_eq hd
    exact Or.inr ⟨definition, body, rfl, hd'⟩

theorem SameButBodies.targetName?_eq (h : doc.SameButBodies changed doc') (target : CallTarget) :
    doc'.targetName? target = doc.targetName? target := by
  cases target with
  | definition number =>
    rw [targetName?, targetName?]
    obtain ⟨hd, hd'⟩ | ⟨definition, body, hd, hd'⟩ := h.definition?_cases number <;> rw [hd, hd']
    rfl
  | parameter number index =>
    rw [targetName?, targetName?]
    obtain ⟨hd, hd'⟩ | ⟨definition, body, hd, hd'⟩ := h.definition?_cases number <;> rw [hd, hd']
    rfl

theorem SameButBodies.definition_eq_of_not_changed {number : DefId} {definition : Definition}
    (h : doc.SameButBodies changed doc') (hchanged : changed number = false)
    (hd : doc.definitions[number.index]? = some definition) :
    doc'.definitions[number.index]? = some definition := by
  obtain ⟨body, hd', hbody⟩ := h.definition_eq hd
  rw [hd', hbody hchanged]

/-- A function that is called goes by its own name, so that its body is the same in both documents. -/
theorem Uncalled.definition_eq {call : ExprId} {function : DefId} {definition : Definition}
    {args : List ExprId} (huncalled : doc.Uncalled changed) (h : doc.SameButBodies changed doc')
    (henv : env.Functions doc.Introduces) (hcalls : doc.Calls env call function definition args) :
    doc'.definitions[function.index]? = some definition := by
  obtain ⟨definition', hd, hf, hname⟩ := hcalls.mentions henv
  have hchanged : changed function = false := by
    cases hc : changed function with
    | false => rfl
    | true => exact absurd ⟨call, hname⟩ (huncalled function _ hc hd)
  exact h.definition_eq_of_not_changed hchanged hcalls.definition_eq

end Document

/-- The documents agree on the names that calls go by, and functions go by their own names. -/
def Alignment.uncalled {doc doc' : Document} {changed : DefId → Bool}
    (h : doc.SameButBodies changed doc') (huncalled : doc.Uncalled changed) :
    Alignment doc doc' where
  name := id
  env := fun env env' => env.AgreeOn doc.calledNames env' ∧ env.Functions doc.Introduces
  error := fun error error' => error' = error
  exprs_eq := h.exprs_eq
  targetName?_eq := by
    intro target
    rw [h.targetName?_eq, Option.map_id_fun, id]
  known henv := Document.known_of_introduces henv.2
  lookup_eq henv hcalled := henv.1 _ ⟨_, hcalled⟩
  function := by
    intro env env' call function definition args henv hcalls
    have htext : doc'.text definition.name = doc.text definition.name := by
      rw [Document.text, Document.text, h.interner_eq]
    refine ⟨definition, huncalled.definition_eq h henv.2 hcalls, rfl, rfl, ?_, ?_, ?_⟩
    · exact fun values => ⟨henv.1.bindAll _ values, henv.2.bindAll _ values⟩
    · intro got
      rw [htext]
    · intro limit
      rw [htext]
  refl := Eq.refl

/-! ### Two passes side by side -/

namespace Document

variable {doc doc' : Document} {changed : DefId → Bool} {env env' : Environment} {stack : CallStack}
  {statement : Statement} {outcome outcome' : Outcome} {statements : List Statement} {pass : Pass}

/-- A statement other than a definition with another body comes to the same in both documents, and such
a definition to something. -/
theorem Computes.exists_unaffected (hc : doc.Computes stack env statement outcome) (h : doc.WellFormed)
    (h' : doc'.WellFormed) (hsame : doc.SameButBodies changed doc') (huncalled : doc.Uncalled changed)
    (henv : env.AgreeOn doc.calledNames env') (hf : env.Functions doc.Introduces)
    (hf' : env'.Functions doc'.Introduces) (hmem : statement ∈ doc'.statements) :
    ∃ outcome', doc'.Computes stack env' statement outcome' ∧
      (statement.isAmong changed = false → outcome' = outcome) := by
  cases hamong : statement.isAmong changed with
  | true =>
    -- nothing is known about the other body, but the second document is well formed as well
    obtain ⟨outcome', hc'⟩ := h'.walkable.exists_computes hf' hmem stack
    exact ⟨outcome', hc', nofun⟩
  | false =>
    have hdefinition : ∀ {number : DefId} {definition : Definition},
        statement = .definition number → doc.definitions[number.index]? = some definition →
        ∃ definition', doc'.definitions[number.index]? = some definition' ∧
          definition'.isFunction = definition.isFunction ∧ definition'.body = definition.body := by
      intro number definition heq hd
      rw [heq] at hamong
      exact ⟨definition, hsame.definition_eq_of_not_changed hamong hd, rfl, rfl⟩
    obtain ⟨outcome', hc', hagree⟩ := (Alignment.uncalled hsame huncalled).exists_computes h
      ⟨henv, hf⟩ hc hsame.evaluations_eq hdefinition
    exact ⟨outcome', hc', fun _ => hagree.eq⟩

/-- A definition with another body binds a name that no call goes by. -/
theorem agreeOn_settleEnv (hsame : doc.SameButBodies changed doc') (huncalled : doc.Uncalled changed)
    (henv : env.AgreeOn doc.calledNames env')
    (houtcome : statement.isAmong changed = false → outcome' = outcome) :
    (doc.settleEnv env statement outcome).AgreeOn doc.calledNames
      (doc'.settleEnv env' statement outcome') := by
  cases statement with
  | evaluation number => exact henv
  | definition number =>
    obtain ⟨hd, hd'⟩ | ⟨definition, body, hd, hd'⟩ := hsame.definition?_cases number
    · rw [definition?] at hd hd'
      rw [settleEnv, settleEnv, hd, hd']
      exact henv
    · rw [settleEnv_of_definition hd, settleEnv_of_definition hd']
      cases hchanged : changed number with
      | true => exact henv.define_other (huncalled number _ hchanged hd) _ _
      | false =>
        rw [houtcome hchanged]
        exact henv.define definition.name _

/-- The second pass has bound the names that calls go by as the first one has, and has the same results
but for the failures of the definitions in question. -/
structure Unaffected (doc : Document) (changed : DefId → Bool) (pass pass' : Pass) : Prop where
  env : pass.env.AgreeOn doc.calledNames pass'.env
  results : Results.AgreeExcept changed pass.results pass'.results

/-- **Two passes agree on the names that calls go by**, also after a definition with another body has
failed in one of them. -/
theorem Runs.exists_unaffected (hruns : doc.Runs .perEvaluation stack statements pass)
    (h : doc.WellFormed) (h' : doc'.WellFormed) (hsame : doc.SameButBodies changed doc')
    (huncalled : doc.Uncalled changed)
    (hmem : ∀ statement ∈ statements, statement ∈ doc.statements) :
    ∃ pass', doc'.Runs .perEvaluation stack statements pass' ∧ doc.Unaffected changed pass pass' := by
  have hmem' : ∀ statement ∈ statements, statement ∈ doc'.statements := by
    rwa [hsame.statements_eq]
  apply hruns.exists_related (doc.Unaffected changed)
  · exact ⟨.refl _ _, ⟨rfl, rfl⟩⟩
  · intro before statement earlier earlier' outcome hbefore hearlier hearlier' hrelated hc _
    have hf : earlier.env.Functions doc.Introduces :=
      hearlier.introduced fun s hs => hmem s (hbefore s (List.mem_append_left _ hs))
    have hf' : earlier'.env.Functions doc'.Introduces :=
      hearlier'.introduced fun s hs => hmem' s (hbefore s (List.mem_append_left _ hs))
    have hlast : statement ∈ doc'.statements :=
      hmem' statement (hbefore statement (List.mem_append_right _ (List.mem_singleton_self _)))
    obtain ⟨outcome', hc', houtcome⟩ :=
      hc.exists_unaffected h h' hsame huncalled hrelated.env hf hf' hlast
    exact ⟨outcome', hc', ErrorPolicy.admits_perEvaluation outcome',
      agreeOn_settleEnv hsame huncalled hrelated.env houtcome, hrelated.results.settle houtcome⟩

/-- **Definitions that nothing calls cannot influence evaluations.** Let two well-formed documents differ
in the bodies of some definitions at most, and let no call in the table of expressions go by the name of
one of them. Then with errors recorded and with any limit on the depth of calls both runs give results.
These have the same entries for all evaluations, and the same variables that could not be computed with
the same errors, if the definitions in question are left out. -/
theorem uncalled_bodies_ignored (h : doc.WellFormed) (h' : doc'.WellFormed)
    (hsame : doc.SameButBodies changed doc') (huncalled : doc.Uncalled changed) (depth : ℕ) :
    ∃ results results',
      (Evaluator.new doc { maxCallDepth := depth, errorPolicy := .perEvaluation }).run.1 =
        .ok results ∧
      (Evaluator.new doc' { maxCallDepth := depth, errorPolicy := .perEvaluation }).run.1 =
        .ok results' ∧
      results'.entries = results.entries ∧
      results'.failures.toList.filter (fun failure => !changed failure.1) =
        results.failures.toList.filter (fun failure => !changed failure.1) := by
  have hmem : ∀ statement ∈ doc.statements.toList, statement ∈ doc.statements :=
    fun _ hs => Array.mem_toList_iff.1 hs
  obtain ⟨pass, hruns⟩ := exists_runs h (.new depth) hmem
  obtain ⟨pass', hruns', hpasses⟩ := hruns.exists_unaffected h h' hsame huncalled hmem
  rw [← hsame.statements_eq] at hruns'
  exact ⟨pass.results, pass'.results, run_eq_ok.2 ⟨pass, hruns, rfl⟩,
    run_eq_ok.2 ⟨pass', hruns', rfl⟩, hpasses.results.entries_eq, hpasses.results.failures_eq⟩

/-- A variable with this body, between a function with a parameter of the same name and a variable that
fails. The function is evaluated at the latter. -/
def unusedVariable (body : ExprId) : Document where
  exprs := #[.number ⟨0x4008000000000000⟩, .call none [], .call (some (.definition ⟨2⟩)) [],
    .call (some (.definition ⟨0⟩)) [⟨2⟩]]
  definitions := #[{ name := ⟨1⟩, params := [⟨2⟩], body := ⟨0⟩ }, { name := ⟨2⟩, params := [], body },
    { name := ⟨3⟩, params := [], body := ⟨1⟩ }]
  evaluations := #[{ expr := ⟨3⟩, source := none }]
  statements := #[.definition ⟨0⟩, .definition ⟨1⟩, .definition ⟨2⟩, .evaluation ⟨0⟩]

/-- The variable is a number, or fails as well. -/
theorem unusedVariable_ignored :
    (unusedVariable ⟨0⟩).WellFormed ∧ (unusedVariable ⟨1⟩).WellFormed ∧
      (unusedVariable ⟨0⟩).SameButBodies (· = ⟨1⟩) (unusedVariable ⟨1⟩) ∧
      (unusedVariable ⟨0⟩).Uncalled (· = ⟨1⟩) ∧
      ∃ results results',
        (Evaluator.new (unusedVariable ⟨0⟩)
          { maxCallDepth := 1, errorPolicy := .perEvaluation }).run.1 = .ok results ∧
        (Evaluator.new (unusedVariable ⟨1⟩)
          { maxCallDepth := 1, errorPolicy := .perEvaluation }).run.1 = .ok results' ∧
        results'.entries = results.entries ∧
        results.failures = #[(⟨2⟩, .unlinkedReference ⟨1⟩)] ∧
        results'.failures = #[(⟨1⟩, .unlinkedReference ⟨1⟩), (⟨2⟩, .unlinkedReference ⟨1⟩)] := by
  have hw : (unusedVariable ⟨0⟩).WellFormed :=
    wellFormed_of_earlier (by decide) (by decide) (by decide) (by decide)
  have hw' : (unusedVariable ⟨1⟩).WellFormed :=
    wellFormed_of_earlier (by decide) (by decide) (by decide) (by decide)
  have hsame : (unusedVariable ⟨0⟩).SameButBodies (· = ⟨1⟩) (unusedVariable ⟨1⟩) := by
    refine ⟨rfl, rfl, rfl, rfl, rfl, ?_⟩
    intro number definition hd
    obtain ⟨i⟩ := number
    match i, hd with
    | 0, hd => exact ⟨_, hd, fun _ => rfl⟩
    | 1, hd =>
      cases hd
      exact ⟨⟨1⟩, rfl, by decide⟩
    | 2, hd => exact ⟨_, hd, fun _ => rfl⟩
    | i + 3, hd => cases hd
  have huncalled : (unusedVariable ⟨0⟩).Uncalled (· = ⟨1⟩) := uncalled_of_exprs (by decide)
  obtain ⟨results, results', hrun, hrun', hentries, -⟩ :=
    uncalled_bodies_ignored hw hw' hsame huncalled 1
  refine ⟨hw, hw', hsame, huncalled, results, results', hrun, hrun', hentries, ?_, ?_⟩
  · cases hrun
    rfl
  · cases hrun'
    rfl

end Document

end Reckon
