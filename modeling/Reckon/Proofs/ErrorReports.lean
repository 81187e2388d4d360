import Reckon.Proofs.Contract
import Reckon.Proofs.Visits

/-!
# Reported errors are true

An error names a call and says what is wrong with it. The call may sit deep in a body, and the
function that its name stands for at that moment need not be the one that it is linked to, as names
can be defined again. What an error says is still so, in terms of the document alone.

* `EvalError.Justified`: what each error says.
* `Document.Introduces`: a statement gives a function its name. A run binds names to such functions
  only, and this is what ties the function found at a call to the target of the call.
* `Contract.truthful`: every error is justified, at a call that a walk comes by.
* `Evaluator.reports_justified`: the errors of a run.
-/

namespace Reckon

theorem Definition.isFunction_iff {definition : Definition} :
    definition.isFunction = true ↔ 1 ≤ definition.arity := by
  cases hparams : definition.params <;> simp [isFunction, arity, hparams]

/-- What the error says about its call is so, where calls nest up to `limit`. -/
def EvalError.Justified (doc : Document) (limit : ℕ) : EvalError → Prop
  | .unlinkedReference call =>
    ∃ target args, doc.exprs[call.index]? = some (.call target args) ∧
      target.bind doc.targetName? = none
  | .arityMismatch name number call expected got =>
    ∃ target args definition, doc.exprs[call.index]? = some (.call target args) ∧
      doc.definitions[number.index]? = some definition ∧
      target.bind doc.targetName? = some definition.name ∧ name = doc.text definition.name ∧
      expected = definition.arity ∧ 1 ≤ expected ∧ got = args.length ∧ expected ≠ got
  | .recursionLimit name call depth =>
    ∃ target args resolved, doc.exprs[call.index]? = some (.call target args) ∧
      target.bind doc.targetName? = some resolved ∧ name = doc.text resolved ∧ depth = limit ∧
      ∃ definition ∈ doc.definitions, definition.name = resolved ∧ 1 ≤ definition.arity ∧
        definition.arity = args.length

namespace Document

variable {doc : Document} {env : Environment} {id : ExprId} {statement : Statement}

theorem visited_of_root? (hmem : statement ∈ doc.statements) (hroot : doc.root? statement = some id) :
    doc.Visited id :=
  ⟨statement, hmem, id, hroot, Within.refl doc id⟩

/-! ### Functions that statements introduce -/

/-- The definition is a function of this name, and a statement of the document. -/
def Introduces (doc : Document) (name : Name) (number : DefId) : Prop :=
  .definition number ∈ doc.statements ∧
    ∃ definition, doc.definitions[number.index]? = some definition ∧ definition.name = name ∧
      definition.isFunction = true

/-- What a call finds goes by the name of its target, whichever definition it is. -/
theorem Calls.introduced {call : ExprId} {function : DefId} {definition : Definition}
    {args : List ExprId} (h : doc.Calls env call function definition args)
    (henv : env.Functions doc.Introduces) :
    .definition function ∈ doc.statements ∧ 1 ≤ definition.arity ∧
      ∃ target, doc.exprs[call.index]? = some (.call target args) ∧
        target.bind doc.targetName? = some definition.name := by
  obtain ⟨target, name, hexpr, hname, hlookup, hd⟩ := h
  obtain ⟨hmem, other, hother, rfl, hfunction⟩ := henv name function hlookup
  -- `other` is the definition that introduced the name, and it is found under the same number
  obtain rfl : definition = other := Option.some.inj (hd.symm.trans hother)
  exact ⟨hmem, Definition.isFunction_iff.1 hfunction, target, hexpr, hname⟩

end Document

/-! ### The contract -/

namespace Contract

/-- Assumes functions that statements introduce and expressions that a walk comes by, and allows
justified errors at such expressions. -/
def truthful (doc : Document) (limit : ℕ) : Contract where
  env := Environment.Functions doc.Introduces
  expr := doc.Visited
  stop := fun stop => ∀ error, stop = .error error →
    doc.Visited error.call ∧ error.Justified doc limit

theorem sound_truthful (doc : Document) (limit : ℕ) : (truthful doc limit).Sound doc limit where
  part hvisited hchild := hvisited.of_within (.of_child hchild (.refl doc _))
  bindAll names values henv := henv.bindAll names values
  body henv hcalls := by
    apply Document.visited_of_root? (hcalls.introduced henv).1
    rw [Document.root?, hcalls.definition_eq]
    rfl
  noExpr := by
    rintro id - - error ⟨⟩
  noDefinition := by
    rintro env name function - - - error ⟨⟩
  unlinked := by
    rintro call target args hvisited hexpr hname error ⟨⟩
    exact ⟨hvisited, target, args, hexpr, hname⟩
  arity := by
    rintro env call function definition args henv hvisited hcalls harity error ⟨⟩
    obtain ⟨-, hpos, target, hexpr, hname⟩ := hcalls.introduced henv
    exact ⟨hvisited, target, args, definition, hexpr, hcalls.definition_eq, hname, rfl, rfl, hpos,
      rfl, harity⟩
  full := by
    rintro env call function definition args henv hvisited hcalls harity error ⟨⟩
    obtain ⟨-, hpos, target, hexpr, hname⟩ := hcalls.introduced henv
    exact ⟨hvisited, target, args, definition.name, hexpr, hname, rfl, rfl, definition,
      Array.mem_of_getElem? hcalls.definition_eq, rfl, hpos, harity⟩
  endless := by
    -- a fault is no error, so that nothing is asked of cyclic documents here
    right
    rintro error ⟨⟩

theorem covers_truthful (doc : Document) (limit : ℕ) : (truthful doc limit).Covers doc where
  start := Environment.functions_empty _
  root hmem hroot := Document.visited_of_root? hmem hroot
  function henv hmem hd hfunction := by
    apply henv.define
    rintro _ ⟨⟩
    exact ⟨hmem, _, hd, rfl, hfunction⟩
  value _ _ henv := henv.define_value
  noStatement := by
    rintro statement size index - - error ⟨⟩

end Contract

namespace Evaluator

variable {evaluator : Evaluator} {error : EvalError}

/-- **Every error of a run tells the truth.** In a well-formed document, an error that ends a run or
is on record after it is at a call that a walk through the document comes by. A call without a link
has a target that is not in the document. A call with the wrong number of arguments goes by the name
of the function reported, and the numbers are those of the function and of the call. A call that was
nested too deeply met the limit of the configuration, and its name is that of a function that takes
its arguments. -/
theorem reports_justified (h : evaluator.document.WellFormed) (hreports : evaluator.Reports error) :
    (∃ nodes, evaluator.document.visits = .ok nodes ∧ error.call.node ∈ nodes) ∧
      error.Justified evaluator.document evaluator.config.maxCallDepth := by
  obtain ⟨hvisited, hjustified⟩ := (Contract.covers_truthful evaluator.document _).stop_of_reports
    (Contract.sound_truthful evaluator.document _) hreports error rfl
  obtain ⟨nodes, hvisits, hmem⟩ := Document.exists_visits h.walkable
  exact ⟨⟨nodes, hvisits, (hmem error.call).2 hvisited⟩, hjustified⟩

end Evaluator

/-- The function `f` is defined twice, first with one parameter and then with two. In between, `g` is
defined by a call of the first `f`. The evaluations call `g`, where the second `f` is found by then,
the second `f`, which calls itself, and a parameter that `f` does not have. -/
def Document.redefined : Document where
  interner := ["f", "g", "x", "y"].foldl (fun interner text => (interner.intern text).2) .new
  exprs := #[.call (some (.parameter ⟨0⟩ 0)) [], .call (some (.definition ⟨0⟩)) [⟨0⟩],
    .call (some (.definition ⟨0⟩)) [⟨0⟩, ⟨0⟩], .call (some (.definition ⟨1⟩)) [⟨0⟩],
    .call (some (.parameter ⟨0⟩ 1)) []]
  definitions := #[{ name := ⟨1⟩, params := [⟨3⟩], body := ⟨0⟩ },
    { name := ⟨2⟩, params := [⟨3⟩], body := ⟨1⟩ },
    { name := ⟨1⟩, params := [⟨3⟩, ⟨4⟩], body := ⟨2⟩ }]
  evaluations := #[{ expr := ⟨3⟩, source := none }, { expr := ⟨2⟩, source := none },
    { expr := ⟨4⟩, source := none }]
  statements := #[.definition ⟨0⟩, .definition ⟨1⟩, .definition ⟨2⟩, .evaluation ⟨0⟩,
    .evaluation ⟨1⟩, .evaluation ⟨2⟩]

theorem Document.redefined_reports :
    redefined.WellFormed ∧
      ∀ error ∈ [EvalError.arityMismatch "f" ⟨2⟩ ⟨1⟩ 2 1, .recursionLimit "f" ⟨2⟩ 3,
          .unlinkedReference ⟨4⟩],
        (Evaluator.new redefined
          { maxCallDepth := 3, errorPolicy := .perEvaluation }).Reports error ∧
        (∃ nodes, redefined.visits = .ok nodes ∧ error.call.node ∈ nodes) ∧
        error.Justified redefined 3 := by
  have hw : redefined.WellFormed :=
    wellFormed_of_earlier (by decide) (by decide) (by decide) (by decide)
  let evaluator := Evaluator.new redefined { maxCallDepth := 3, errorPolicy := .perEvaluation }
  have hrun : evaluator.run.1 = .ok
      (Results.empty.record ⟨0⟩ (.error (.arityMismatch "f" ⟨2⟩ ⟨1⟩ 2 1))
        |>.record ⟨1⟩ (.error (.recursionLimit "f" ⟨2⟩ 3))
        |>.record ⟨2⟩ (.error (.unlinkedReference ⟨4⟩))) := by
    decide +kernel
  refine ⟨hw, ?_⟩
  intro error herror
  have hreports : evaluator.Reports error := by
    rw [Evaluator.Reports]
    right
    refine ⟨_, hrun, ?_⟩
    left
    simpa [eq_comm] using herror
  exact ⟨hreports, @Evaluator.reports_justified evaluator error hw hreports⟩

end Reckon
