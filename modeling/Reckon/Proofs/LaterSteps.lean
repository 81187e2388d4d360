import Reckon.Proofs.BuiltDocuments
import Reckon.Proofs.Growth
import Reckon.Proofs.VisitedCode

/-!
# Later steps change nothing that was computed

A document can be evaluated and then built further. This file compares the two runs: what the first one
found stays as it was, and the second one only adds to it. All that is needed is that the calls were
linked by the time of the first run, as a later step can supply what a link was waiting for, and that
no later step gives an old definition another body.

* `Document.Linked`: calls with a target have a name to go by.
* `Continues.keeps`: a document that has grown keeps the code that statements lead to.
* `Computes.of_continues`, `Runs.of_continues`: a statement and a pass come to the same there. The second
  is by induction on the statements.
* `later_steps_conservative`: the runs of a document and of what is built from it.
-/

namespace Reckon

/-- The target of a call, if it has one. -/
def Expr.target? : Expr → Option CallTarget
  | .call target _ => target
  | .binary .. | .number _ | .error => none

namespace Document

variable {doc next : Document} {policy : ErrorPolicy} {stack : CallStack} {env : Environment}
  {pass : Pass} {statement : Statement} {statements : List Statement} {outcome : Outcome}

/-! ### Code that is kept -/

/-- Every call that a statement leads to has no target at all, or one that is in the document. -/
def Linked (doc : Document) : Prop :=
  ∀ {id : ExprId} {target : CallTarget} {args : List ExprId}, doc.Visited id →
    doc.exprs[id.index]? = some (.call (some target) args) → ∃ name, doc.targetName? target = some name

/-- The targets of a document can be checked by going through its expressions. -/
theorem linked_of_exprs
    (h : ∀ expr ∈ doc.exprs, ∀ target ∈ expr.target?.toList, (doc.targetName? target).isSome = true) :
    doc.Linked := by
  intro id target args _ hexpr
  have hsome := h _ (Array.mem_of_getElem? hexpr) target (by simp [Expr.target?])
  exact Option.isSome_iff_exists.1 hsome

theorem Continues.targetName?_eq {target : CallTarget} {name : Name} (h : doc.Continues next)
    (hname : doc.targetName? target = some name) : next.targetName? target = some name := by
  cases target with
  | definition number =>
    obtain ⟨definition, hd, rfl⟩ := Option.map_eq_some_iff.1 hname
    exact Option.map_eq_some_iff.2 ⟨definition, h.definitions hd, rfl⟩
  | parameter number index =>
    obtain ⟨definition, hd, hparam⟩ := Option.bind_eq_some_iff.1 hname
    exact Option.bind_eq_some_iff.2 ⟨definition, h.definitions hd, hparam⟩

theorem Continues.keeps (h : doc.Continues next) (hlinked : doc.Linked) (hnamed : doc.Named) :
    doc.Keeps next where
  expr_eq _ hexpr := h.exprs hexpr
  name_eq := by
    intro id target args hid hexpr
    cases target with
    | none => rfl
    | some target =>
      obtain ⟨name, hname⟩ := hlinked hid hexpr
      show next.targetName? target = doc.targetName? target
      rw [hname, h.targetName?_eq hname]
  function_eq _ hd _ := h.definitions hd
  text_eq _ hd := by
    obtain ⟨text, htext⟩ := hnamed _ (Array.mem_of_getElem? hd)
    exact Interner.text_eq_of_grows h.texts htext

/-! ### Statements and passes -/

theorem Continues.settle_eq (h : doc.Continues next) (hhas : doc.HasStatement statement) :
    next.settle pass statement outcome = doc.settle pass statement outcome := by
  cases statement with
  | evaluation number => rfl
  | definition number =>
    have hd : doc.definitions[number.index]? = some doc.definitions[number.index] :=
      Array.getElem?_eq_getElem hhas
    rw [settle, settle, settleEnv_of_definition hd, settleEnv_of_definition (h.definitions hd)]

theorem Computes.of_continues (hc : doc.Computes stack env statement outcome) (hw : doc.Walkable)
    (hacyclic : next.Acyclic) (h : doc.Continues next) (hkeeps : doc.Keeps next)
    (henv : env.Functions doc.Introduces) (hmem : statement ∈ doc.statements) :
    next.Computes stack env statement outcome := by
  cases hc with
  | function hd hf => exact .function (h.definitions hd) hf
  | assignment hd hf hy =>
    exact .assignment (h.definitions hd) hf
      (hy.of_keeps hw hacyclic hkeeps henv (visited_body hmem hd))
  | evaluation he hy =>
    exact .evaluation (h.evaluations he)
      (hy.of_keeps hw hacyclic hkeeps henv (visited_expr hmem he))

theorem Runs.of_continues (hruns : doc.Runs policy stack statements pass) (hw : doc.Walkable)
    (hacyclic : next.Acyclic) (h : doc.Continues next) (hkeeps : doc.Keeps next)
    (hmem : ∀ statement ∈ statements, statement ∈ doc.statements) :
    next.Runs policy stack statements pass := by
  induction hruns with
  | nil => exact .nil
  | @concat statements earlier statement outcome hearlier hc ha ih =>
    have hbefore : ∀ s ∈ statements, s ∈ doc.statements :=
      fun s hs => hmem s (List.mem_append_left _ hs)
    have hlast : statement ∈ doc.statements :=
      hmem statement (List.mem_append_right _ (List.mem_singleton_self statement))
    have hsame := hc.of_continues hw hacyclic h hkeeps (hearlier.introduced hbefore) hlast
    rw [← h.settle_eq (hw.hasStatement statement hlast)]
    exact (ih hbefore).concat hsame ha

theorem Fails.of_continues {error : EvalError} (hfails : doc.Fails policy stack statements error)
    (hw : doc.Walkable) (hacyclic : next.Acyclic) (h : doc.Continues next) (hkeeps : doc.Keeps next)
    (hmem : ∀ statement ∈ statements, statement ∈ doc.statements) (later : List Statement) :
    next.Fails policy stack (statements ++ later) error := by
  obtain ⟨before, failing, after, earlier, rfl, hruns, hc⟩ := hfails
  have hbefore : ∀ s ∈ before, s ∈ doc.statements :=
    fun s hs => hmem s (List.mem_append_left _ hs)
  have hfailing : failing ∈ doc.statements :=
    hmem failing (List.mem_append_right _ List.mem_cons_self)
  refine ⟨before, failing, after ++ later, earlier, ?_,
    hruns.of_continues hw hacyclic h hkeeps hbefore,
    hc.of_continues hw hacyclic h hkeeps (hruns.introduced hbefore) hfailing⟩
  rw [List.append_assoc, List.cons_append]

/-! ### Runs -/

/-- **Later steps are conservative.** Let a script build a walkable document in which every call has no
target or one that is there, and let further steps build another walkable document from it, without
giving any of its definitions another body. Then for every limit on the depth of calls:

* With errors recorded, both give results. Those of the second document hold those of the first one,
  entries and variables that could not be computed, in the same order and before all others.
* If an error ends the run of the first document, then the same error ends that of the second. -/
theorem later_steps_conservative (script steps : List Step) (hw : (built script).Walkable)
    (hlinked : (built script).Linked) (hw' : (built (script ++ steps)).Walkable)
    (hspares : ∀ step ∈ steps, step.Spares (built script)) (depth : ℕ) :
    (∃ results results',
      (Evaluator.new (built script)
        { maxCallDepth := depth, errorPolicy := .perEvaluation }).run.1 = .ok results ∧
      (Evaluator.new (built (script ++ steps))
        { maxCallDepth := depth, errorPolicy := .perEvaluation }).run.1 = .ok results' ∧
      results.entries.toList <+: results'.entries.toList ∧
      results.failures.toList <+: results'.failures.toList) ∧
    ∀ error,
      (Evaluator.new (built script)
        { maxCallDepth := depth, errorPolicy := .abortPass }).run.1 = .error (.error error) →
      (Evaluator.new (built (script ++ steps))
        { maxCallDepth := depth, errorPolicy := .abortPass }).run.1 = .error (.error error) := by
  have h : (built script).Continues (built (script ++ steps)) := by
    rw [built, built, build_append]
    exact continues_build hspares
  have hkeeps := h.keeps hlinked (named_built script)
  have hmem : ∀ statement ∈ (built script).statements.toList,
      statement ∈ (built script).statements := fun _ hs => Array.mem_toList_iff.1 hs
  obtain ⟨later, hlater⟩ := h.statements.toList_prefix
  constructor
  · have hmem' : ∀ statement ∈ (built (script ++ steps)).statements.toList,
        statement ∈ (built (script ++ steps)).statements := fun _ hs => Array.mem_toList_iff.1 hs
    obtain ⟨pass, hruns⟩ := hw.exists_runs (.new depth) hmem
    obtain ⟨final, hfinal⟩ := hw'.exists_runs (.new depth) hmem'
    refine ⟨pass.results, final.results, run_eq_ok.2 ⟨pass, hruns, rfl⟩,
      run_eq_ok.2 ⟨final, hfinal, rfl⟩, ?_⟩
    rw [← hlater] at hfinal
    obtain ⟨earlier, hearlier, hextends⟩ := hfinal.split
    have hsame := hruns.of_continues hw hw'.acyclic h hkeeps hmem
    rw [hearlier.unique hsame] at hextends
    exact hextends
  · intro error hrun
    obtain ⟨last, hlist⟩ := run_eq_error.1 hrun
    have hfails := (fails_of_error hlist).of_continues hw hw'.acyclic h hkeeps hmem later
    rw [hlater] at hfails
    exact run_eq_error.2 ⟨_, hfails.runList⟩

/-- The function `f` gives its argument back, the variable `y` is a call without a target, and the
evaluation is `f y`. -/
def identityScript : List Step := [
  .declare "f" ["x"],
  .addParameter ⟨0⟩ 0,
  .setBody ⟨0⟩ ⟨1⟩,
  .addExpr (.call none []),
  .define "y" [] ⟨2⟩,
  .addExpr (.call (some (.definition ⟨1⟩)) []),
  .addExpr (.call (some (.definition ⟨0⟩)) [⟨4⟩]),
  .evaluate ⟨5⟩ none]

/-- Defines `f` again, with two parameters and a body, and evaluates `f y` once more. -/
def secondScript : List Step := [
  .declare "f" ["x", "y"],
  .addParameter ⟨2⟩ 1,
  .setBody ⟨2⟩ ⟨7⟩,
  .evaluate ⟨5⟩ none]

/-- The failed variable and the first evaluation stay as they were, though the second evaluation of the
same expression fails. -/
theorem secondScript_conservative :
    (built identityScript).Walkable ∧ (built identityScript).Linked ∧
      (built (identityScript ++ secondScript)).Walkable ∧
      (∀ step ∈ secondScript, step.Spares (built identityScript)) ∧
      (∃ results results',
        (Evaluator.new (built identityScript)
          { maxCallDepth := 1, errorPolicy := .perEvaluation }).run.1 = .ok results ∧
        (Evaluator.new (built (identityScript ++ secondScript))
          { maxCallDepth := 1, errorPolicy := .perEvaluation }).run.1 = .ok results' ∧
        results.failures = #[(⟨1⟩, .unlinkedReference ⟨2⟩)] ∧
        results'.outcome? ⟨1⟩ = .ok (some (.error (.arityMismatch "f" ⟨2⟩ ⟨5⟩ 2 1))) ∧
        results.entries.toList <+: results'.entries.toList ∧
        results.failures.toList <+: results'.failures.toList) ∧
      (Evaluator.new (built (identityScript ++ secondScript)) { maxCallDepth := 1 }).run.1 =
        .error (.error (.unlinkedReference ⟨2⟩)) := by
  have hsupplied : Step.Supplied identityScript := by decide +kernel
  have hsupplied' : Step.Supplied (identityScript ++ secondScript) := by decide +kernel
  have hw := hsupplied.ordered.1.wellFormed.walkable
  have hw' := hsupplied'.ordered.1.wellFormed.walkable
  have hlinked : (built identityScript).Linked := linked_of_exprs (by decide +kernel)
  have hsize : (built identityScript).definitions.size = 2 := by decide +kernel
  have hspares : ∀ step ∈ secondScript, step.Spares (built identityScript) := by
    simp [secondScript, Step.Spares, hsize]
  obtain ⟨⟨results, results', hrun, hrun', hextends⟩, herror⟩ :=
    later_steps_conservative identityScript secondScript hw hlinked hw' hspares 1
  have hfirst : (Evaluator.new (built identityScript)
      { maxCallDepth := 1, errorPolicy := .perEvaluation }).run.1 = .ok
        ((Results.empty.recordFailure ⟨1⟩ (.unlinkedReference ⟨2⟩)).record ⟨0⟩ (.ok none)) := by
    decide +kernel
  have hsecond : (Evaluator.new (built (identityScript ++ secondScript))
      { maxCallDepth := 1, errorPolicy := .perEvaluation }).run.1 = .ok
        (Results.empty.recordFailure ⟨1⟩ (.unlinkedReference ⟨2⟩)
          |>.record ⟨0⟩ (.ok none)
          |>.record ⟨1⟩ (.error (.arityMismatch "f" ⟨2⟩ ⟨5⟩ 2 1))) := by
    decide +kernel
  refine ⟨hw, hlinked, hw', hspares, ⟨results, results', hrun, hrun', ?_, ?_, hextends⟩,
    herror _ ?_⟩
  · rw [hrun] at hfirst
    cases hfirst
    rfl
  · rw [hrun'] at hsecond
    cases hsecond
    rfl
  · decide +kernel

end Document

end Reckon
