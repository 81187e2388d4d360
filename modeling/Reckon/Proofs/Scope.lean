import Reckon.Proofs.Statements

/-!
# What is in scope

A pass has one environment, and calls make environments of their own for the bodies that they enter.
This file shows which names the environment of a pass binds, and to what: the names that the statements
so far define, each by its last definition. Parameters never get there.

* `Document.Defines`: a statement defines a name.
* `Document.Binds`: the binding that a definition makes, by the outcome of its body in the environment
  before it.
* `Document.LastDefinition`: where a list of statements defines a name for the last time.
* `Runs.exists_lastDefinition`, `Runs.lookup_of_lastDefinition`: the binding of a name is the one that
  its last definition makes.
* `Runs.exists_entry`: the entry of an evaluation is its outcome in the environment before it.
* `Document.Scoping`, `scoping_of_runList`: the whole law.
-/

namespace Reckon

/-- Whether a statement is an evaluation. -/
def Statement.isEvaluation : Statement → Bool
  | .evaluation _ => true
  | .definition _ => false

namespace Document

variable {doc : Document} {policy : ErrorPolicy} {stack : CallStack} {env : Environment}
  {pass earlier : Pass} {statement : Statement} {outcome : Outcome} {name : Name}
  {binding : Binding} {number : DefId} {definition : Definition}
  {statements before after : List Statement}

/-! ### Definitions of a name -/

/-- The statement is a definition of this name. -/
def Defines (doc : Document) (name : Name) : Statement → Prop
  | .definition number =>
    ∃ definition, doc.definitions[number.index]? = some definition ∧ definition.name = name
  | .evaluation _ => False

/-- The binding that a definition makes: a function as it is, a variable by the outcome of its body in
the environment before it. A variable that could not be computed has no value. -/
inductive Binds (doc : Document) (policy : ErrorPolicy) (stack : CallStack) (env : Environment)
    (number : DefId) (definition : Definition) : Binding → Prop
  | function (hf : definition.isFunction = true) :
      Binds doc policy stack env number definition (.function number)
  | value {outcome : Outcome} (hf : definition.isFunction = false)
      (hy : doc.Yields stack env definition.body outcome) (ha : policy.Admits outcome) :
      Binds doc policy stack env number definition (.value outcome.value)

/-- Of the statements, the one after `before` is a definition of the name, and the last one. -/
def LastDefinition (doc : Document) (name : Name) (statements before : List Statement)
    (number : DefId) (definition : Definition) : Prop :=
  ∃ after, statements = before ++ .definition number :: after ∧
    doc.definitions[number.index]? = some definition ∧ definition.name = name ∧
    ∀ statement ∈ after, ¬ doc.Defines name statement

theorem Binds.unique {other : Binding} (h : doc.Binds policy stack env number definition binding)
    (h' : doc.Binds policy stack env number definition other) : binding = other := by
  cases h with
  | function hf =>
    cases h' with
    | function _ => rfl
    | value hf' _ _ => simp [hf] at hf'
  | value hf hy _ =>
    cases h' with
    | function hf' => simp [hf] at hf'
    | value _ hy' _ => rw [hy.unique hy']

/-! ### One statement -/

theorem lookup_settleEnv_of_not_defines (h : ¬ doc.Defines name statement) :
    (doc.settleEnv env statement outcome).lookup name = env.lookup name := by
  cases statement with
  | evaluation number => rfl
  | definition number =>
    cases hd : doc.definitions[number.index]? with
    | none => rw [settleEnv, hd]
    | some definition =>
      have hne : definition.name ≠ name := fun heq => h ⟨definition, hd, heq⟩
      rw [settleEnv_of_definition hd, Environment.lookup_define, if_neg hne]

theorem Computes.exists_binds (hc : doc.Computes stack env (.definition number) outcome)
    (ha : policy.Admits outcome) (hd : doc.definitions[number.index]? = some definition) :
    ∃ binding, doc.Binds policy stack env number definition binding ∧
      doc.settleEnv env (.definition number) outcome = env.define definition.name binding := by
  rw [settleEnv_of_definition hd]
  cases hc with
  | function hd' hf =>
    obtain rfl := Option.some.inj (hd.symm.trans hd')
    exact ⟨.function number, .function hf, by rw [if_pos hf]⟩
  | assignment hd' hf hy =>
    obtain rfl := Option.some.inj (hd.symm.trans hd')
    exact ⟨.value outcome.value, .value hf hy ha, by simp [hf]⟩

/-! ### Names in the environment of a pass -/

theorem Runs.isSome_lookup_iff (h : doc.Runs policy stack statements pass) (name : Name) :
    (pass.env.lookup name).isSome = true ↔
      ∃ statement ∈ statements, doc.Defines name statement := by
  induction h with
  | nil => simp
  | @concat statements earlier statement outcome _ hc ha ih =>
    simp only [List.mem_append, List.mem_singleton, or_and_right, exists_or, exists_eq_left]
    by_cases hdefines : doc.Defines name statement
    · cases statement with
      | evaluation number => exact absurd hdefines id
      | definition number =>
        obtain ⟨definition, hd, rfl⟩ := hdefines
        obtain ⟨binding, -, henv⟩ := hc.exists_binds ha hd
        rw [settle, henv]
        simpa using Or.inr ⟨definition, hd, rfl⟩
    · rw [settle, lookup_settleEnv_of_not_defines hdefines, ih]
      simp [hdefines]

/-- Statements that do not define a name keep its binding. -/
theorem Runs.lookup_eq_of_not_defines (h : doc.Runs policy stack (before ++ after) pass)
    (hearlier : doc.Runs policy stack before earlier)
    (hafter : ∀ statement ∈ after, ¬ doc.Defines name statement) :
    pass.env.lookup name = earlier.env.lookup name := by
  induction after using List.reverseRecOn generalizing pass with
  | nil =>
    rw [List.append_nil] at h
    rw [h.unique hearlier]
  | append_singleton after statement ih =>
    rw [← List.append_assoc] at h
    obtain ⟨middle, outcome, hmiddle, -, -, rfl⟩ := h.exists_last
    have hlast := hafter statement (List.mem_append_right _ (List.mem_singleton_self statement))
    rw [settle, lookup_settleEnv_of_not_defines hlast]
    exact ih hmiddle fun s hs => hafter s (List.mem_append_left _ hs)

/-- The last definition of a name makes its binding. -/
theorem Runs.lookup_of_lastDefinition (h : doc.Runs policy stack statements pass)
    (hlast : doc.LastDefinition name statements before number definition)
    (hearlier : doc.Runs policy stack before earlier)
    (hbinds : doc.Binds policy stack earlier.env number definition binding) :
    pass.env.lookup name = some binding := by
  obtain ⟨after, rfl, hd, rfl, hafter⟩ := hlast
  rw [← List.singleton_append, ← List.append_assoc] at h
  obtain ⟨middle, hmiddle, -⟩ := h.split
  rw [h.lookup_eq_of_not_defines hmiddle hafter]
  obtain ⟨first, outcome, hfirst, hc, ha, rfl⟩ := hmiddle.exists_last
  obtain rfl := hearlier.unique hfirst
  obtain ⟨made, hmade, henv⟩ := hc.exists_binds ha hd
  rw [settle, henv, hbinds.unique hmade, Environment.lookup_define_self]

/-- Every binding was made by a definition that no other one has followed. -/
theorem Runs.exists_lastDefinition (h : doc.Runs policy stack statements pass)
    (hb : pass.env.lookup name = some binding) :
    ∃ before number definition earlier,
      doc.LastDefinition name statements before number definition ∧
      doc.Runs policy stack before earlier ∧
      doc.Binds policy stack earlier.env number definition binding := by
  induction h with
  | nil => simp at hb
  | @concat statements earlier statement outcome hruns hc ha ih =>
    by_cases hdefines : doc.Defines name statement
    · cases statement with
      | evaluation number => exact absurd hdefines id
      | definition number =>
        obtain ⟨definition, hd, rfl⟩ := hdefines
        obtain ⟨made, hbinds, henv⟩ := hc.exists_binds ha hd
        rw [settle, henv, Environment.lookup_define_self] at hb
        cases hb
        exact ⟨statements, number, definition, earlier, ⟨[], rfl, hd, rfl, by simp⟩, hruns, hbinds⟩
    · rw [settle, lookup_settleEnv_of_not_defines hdefines] at hb
      obtain ⟨before, number, definition, first, ⟨after, rfl, hd, hname, hafter⟩, hfirst, hbinds⟩ :=
        ih hb
      refine ⟨before, number, definition, first, ⟨after ++ [statement], ?_, hd, hname, ?_⟩, hfirst,
        hbinds⟩
      · rw [List.append_assoc, List.cons_append]
      · intro s hs
        rcases List.mem_append.1 hs with hs | hs
        · exact hafter s hs
        · rw [List.mem_singleton.1 hs]
          exact hdefines

/-! ### Entries of evaluations -/

theorem Runs.size_entries (h : doc.Runs policy stack statements pass) :
    pass.results.entries.size = statements.countP Statement.isEvaluation := by
  induction h with
  | nil => rfl
  | @concat statements earlier statement outcome _ _ _ ih =>
    rw [List.countP_append, ← ih, settle]
    cases statement with
    | evaluation number =>
      rw [Results.settle_evaluation]
      simp [Statement.isEvaluation]
    | definition number => cases outcome <;> rfl

/-- The entry of an evaluation stands in its place, and is what the evaluation came to in the
environment before it. -/
theorem Runs.exists_entry {number : EvaluationId}
    (h : doc.Runs policy stack (before ++ .evaluation number :: after) pass) :
    ∃ earlier evaluation outcome, doc.Runs policy stack before earlier ∧
      doc.evaluations[number.index]? = some evaluation ∧
      doc.Yields stack earlier.env evaluation.expr outcome ∧
      pass.results.entries[before.countP Statement.isEvaluation]? = some ⟨number, outcome⟩ := by
  rw [← List.singleton_append, ← List.append_assoc] at h
  obtain ⟨middle, hmiddle, hextends⟩ := h.split
  obtain ⟨earlier, outcome, hearlier, hc, -, rfl⟩ := hmiddle.exists_last
  cases hc with
  | @evaluation _ evaluation _ he hy =>
    refine ⟨earlier, evaluation, outcome, hearlier, he, hy, ?_⟩
    have hentry : (doc.settle earlier (.evaluation number) outcome).results.entries.toList[
        before.countP Statement.isEvaluation]? = some ⟨number, outcome⟩ := by
      rw [settle, Results.settle_evaluation, ← hearlier.size_entries]
      simp
    obtain ⟨hlt, hget⟩ := List.getElem?_eq_some_iff.1 hentry
    rw [← Array.getElem?_toList, List.prefix_iff_getElem?.1 hextends.1 _ hlt, hget]

/-! ### The law -/

/-- A call of a name that nothing has bound has no value. -/
theorem yields_of_unbound {id : ExprId} {target : Option CallTarget} {args : List ExprId}
    (h : doc.exprs[id.index]? = some (.call target args))
    (hname : target.bind doc.targetName? = some name) (hb : env.lookup name = none)
    (stack : CallStack) : doc.Yields stack env id (.ok none) := by
  apply yields_ok
  obtain ⟨enter, henter⟩ := doc.exists_evalWithin_eq stack.room
  show doc.evalWithin stack.room env id stack = .ok none stack
  rw [henter, height, evalNode_of_unbound h hname hb]
  rfl

/-- What is in scope after the statements, and what the evaluations among them have seen. -/
structure Scoping (doc : Document) (policy : ErrorPolicy) (depth : ℕ) (statements : List Statement)
    (pass : Pass) : Prop where
  /-- A name is bound exactly if a statement defines it. -/
  isSome_lookup_iff : ∀ name, (pass.env.lookup name).isSome = true ↔
    ∃ statement ∈ statements, doc.Defines name statement
  /-- It is bound to what its last definition makes of it, in the environment before that. -/
  lookup_iff : ∀ name binding, pass.env.lookup name = some binding ↔
    ∃ before number definition earlier,
      doc.LastDefinition name statements before number definition ∧
      doc.runList policy before (.new depth) = .ok earlier (.new depth) ∧
      doc.Binds policy (.new depth) earlier.env number definition binding
  /-- A call of a name that no statement has defined so far has no value. -/
  forward : ∀ {id : ExprId} {target : Option CallTarget} {args : List ExprId} {name : Name},
    doc.exprs[id.index]? = some (.call target args) → target.bind doc.targetName? = some name →
    (∀ statement ∈ statements, ¬ doc.Defines name statement) →
    doc.Yields (.new depth) pass.env id (.ok none)
  /-- Every evaluation has an entry in its place: what it comes to in the environment before it. -/
  entry : ∀ before number after, statements = before ++ .evaluation number :: after →
    ∃ earlier evaluation outcome,
      doc.runList policy before (.new depth) = .ok earlier (.new depth) ∧
      doc.evaluations[number.index]? = some evaluation ∧
      doc.Yields (.new depth) earlier.env evaluation.expr outcome ∧
      pass.results.entries[before.countP Statement.isEvaluation]? = some ⟨number, outcome⟩
  /-- There are no other entries. -/
  size_entries : pass.results.entries.size = statements.countP Statement.isEvaluation

theorem Runs.scoping {depth : ℕ} (h : doc.Runs policy (.new depth) statements pass) :
    doc.Scoping policy depth statements pass where
  isSome_lookup_iff := h.isSome_lookup_iff
  lookup_iff := by
    intro name binding
    constructor
    · intro hb
      obtain ⟨before, number, definition, earlier, hlast, hruns, hbinds⟩ := h.exists_lastDefinition hb
      exact ⟨before, number, definition, earlier, hlast, hruns.runList, hbinds⟩
    · intro hmade
      obtain ⟨before, number, definition, earlier, hlast, hruns, hbinds⟩ := hmade
      exact h.lookup_of_lastDefinition hlast (runs_iff.2 hruns) hbinds
  forward := by
    intro id target args name hexpr hname hnone
    apply yields_of_unbound hexpr hname
    rw [← Option.not_isSome_iff_eq_none, h.isSome_lookup_iff]
    exact fun hdefined => hdefined.elim fun statement hs => hnone statement hs.1 hs.2
  entry := by
    intro before number after hsplit
    rw [hsplit] at h
    obtain ⟨earlier, evaluation, outcome, hruns, he, hy, hentry⟩ := h.exists_entry
    exact ⟨earlier, evaluation, outcome, hruns.runList, he, hy, hentry⟩
  size_entries := h.size_entries

/-- **The scope of a pass.** In a well-formed document, under every policy and with every limit on the
depth of calls, take the statements up to some point.

* If errors are recorded, they can always be processed.
* If they can be processed, then the names in scope are those that they define. Each name is bound by
  its last definition: to the function, or to what the body of the variable comes to in the environment
  before it. Each evaluation among them was computed in the environment before it, and a name that is
  defined later on has no value.
* The results of a run keep what was recorded up to there, whatever is defined again later. -/
theorem scoping_of_runList (h : doc.WellFormed) (policy : ErrorPolicy) (depth : ℕ)
    (hsplit : doc.statements.toList = before ++ after) :
    (policy = .perEvaluation →
      ∃ pass, doc.runList policy before (.new depth) = .ok pass (.new depth)) ∧
    ∀ pass next, doc.runList policy before (.new depth) = .ok pass next →
      doc.Scoping policy depth before pass ∧
      ∀ results, (Evaluator.new doc { maxCallDepth := depth, errorPolicy := policy }).run.1 =
        .ok results → results.Extends pass.results := by
  constructor
  · intro hpolicy
    subst hpolicy
    obtain ⟨pass, hruns⟩ := exists_runs h (.new depth) (mem_statements_of_split hsplit).1
    exact ⟨pass, hruns.runList⟩
  · intro pass next hrun
    obtain ⟨-, hruns⟩ := runs_of_runList hrun
    refine ⟨hruns.scoping, ?_⟩
    intro results hresults
    obtain ⟨final, hfinal, rfl⟩ := run_eq_ok.1 hresults
    rw [hsplit] at hfinal
    obtain ⟨earlier, hearlier, hextends⟩ := hfinal.split
    rwa [hearlier.unique hruns] at hextends

/-- The variable `x` is read before it is defined. It is defined as a number, a function with a parameter
of the same name and another one `y` is defined and called, and `x` is defined again by a call that has
no target. -/
def shadowed : Document where
  exprs := #[.number ⟨0x3ff0000000000000⟩, .call (some (.definition ⟨0⟩)) [],
    .call (some (.parameter ⟨1⟩ 0)) [], .call (some (.definition ⟨1⟩)) [⟨1⟩, ⟨0⟩], .call none []]
  definitions := #[{ name := ⟨1⟩, params := [], body := ⟨0⟩ },
    { name := ⟨2⟩, params := [⟨1⟩, ⟨3⟩], body := ⟨2⟩ }, { name := ⟨1⟩, params := [], body := ⟨4⟩ }]
  evaluations := #[{ expr := ⟨1⟩, source := none }, { expr := ⟨3⟩, source := none }]
  statements := #[.evaluation ⟨0⟩, .definition ⟨0⟩, .definition ⟨1⟩, .evaluation ⟨1⟩,
    .definition ⟨2⟩]

/-- Up to the second definition, `x` has the value of the first one, though a call has bound a parameter
of this name in between; then it has none. The parameter `y` is never in scope. -/
theorem shadowed_scoping :
    shadowed.WellFormed ∧
      ∃ earlier pass,
        shadowed.runList .perEvaluation
          [.evaluation ⟨0⟩, .definition ⟨0⟩, .definition ⟨1⟩, .evaluation ⟨1⟩] (.new 2) =
            .ok earlier (.new 2) ∧
        earlier.env.lookup ⟨1⟩ = some (.value (some ⟨0x3ff0000000000000⟩)) ∧
        shadowed.runList .perEvaluation shadowed.statements.toList (.new 2) = .ok pass (.new 2) ∧
        pass.env.lookup ⟨1⟩ = some (.value none) ∧ pass.env.lookup ⟨3⟩ = none := by
  have hw : shadowed.WellFormed :=
    wellFormed_of_earlier (by decide) (by decide) (by decide) (by decide)
  obtain ⟨hfirst, -⟩ := @scoping_of_runList shadowed [.evaluation ⟨0⟩]
    [.definition ⟨0⟩, .definition ⟨1⟩, .evaluation ⟨1⟩, .definition ⟨2⟩] hw .perEvaluation 2 rfl
  obtain ⟨hmiddle, hscoped⟩ := @scoping_of_runList shadowed
    [.evaluation ⟨0⟩, .definition ⟨0⟩, .definition ⟨1⟩, .evaluation ⟨1⟩] [.definition ⟨2⟩] hw
    .perEvaluation 2 rfl
  obtain ⟨hall, hscopes⟩ := @scoping_of_runList shadowed shadowed.statements.toList [] hw
    .perEvaluation 2 rfl
  obtain ⟨first, hfirst⟩ := hfirst rfl
  obtain ⟨earlier, hearlier⟩ := hmiddle rfl
  obtain ⟨pass, hpass⟩ := hall rfl
  have hone : shadowed.Yields (.new 2) first.env ⟨0⟩ (.ok (some ⟨0x3ff0000000000000⟩)) := rfl
  have herror : shadowed.Yields (.new 2) earlier.env ⟨4⟩ (.error (.unlinkedReference ⟨4⟩)) := rfl
  have hvalue : earlier.env.lookup ⟨1⟩ = some (.value (some ⟨0x3ff0000000000000⟩)) := by
    apply ((hscoped earlier _ hearlier).1.lookup_iff _ _).2
    have hlast : shadowed.LastDefinition ⟨1⟩ _ [.evaluation ⟨0⟩] ⟨0⟩ ⟨⟨1⟩, [], ⟨0⟩⟩ :=
      ⟨[.definition ⟨1⟩, .evaluation ⟨1⟩], rfl, rfl, rfl, by simp [Defines, shadowed]⟩
    have hbinds : shadowed.Binds .perEvaluation (.new 2) first.env ⟨0⟩ ⟨⟨1⟩, [], ⟨0⟩⟩
        (.value (Outcome.value (.ok _))) := .value rfl hone (ErrorPolicy.admits_perEvaluation _)
    exact ⟨_, _, _, first, hlast, hfirst, hbinds⟩
  have hnone : pass.env.lookup ⟨1⟩ = some (.value none) := by
    apply ((hscopes pass _ hpass).1.lookup_iff _ _).2
    have hlast : shadowed.LastDefinition ⟨1⟩ shadowed.statements.toList
        [.evaluation ⟨0⟩, .definition ⟨0⟩, .definition ⟨1⟩, .evaluation ⟨1⟩] ⟨2⟩ ⟨⟨1⟩, [], ⟨4⟩⟩ :=
      ⟨[], rfl, rfl, rfl, by simp⟩
    have hbinds : shadowed.Binds .perEvaluation (.new 2) earlier.env ⟨2⟩ ⟨⟨1⟩, [], ⟨4⟩⟩
        (.value (Outcome.value (.error _))) := .value rfl herror (ErrorPolicy.admits_perEvaluation _)
    exact ⟨_, _, _, earlier, hlast, hearlier, hbinds⟩
  refine ⟨hw, earlier, pass, hearlier, hvalue, hpass, hnone, ?_⟩
  rw [← Option.not_isSome_iff_eq_none, (hscopes pass _ hpass).1.isSome_lookup_iff]
  simp [Defines, shadowed]

end Document

end Reckon
