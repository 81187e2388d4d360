import Reckon.Proofs.Machine

/-!
# Evaluation comes to an end

Functions may call themselves and one another in any way: the limit of the stack stops them. What is
left to exclude is an expression that contains itself. This file shows that nothing else can keep an
evaluation from its end.

* `Machine.acc_of_reaches`: a machine that comes to a state without moves has no infinite run, as it
  moves in one way only.
* `Stop.Ordinary`: an error of the calculation or an index out of range, as against a bound that was
  met. `Contract.ordinary` allows nothing else, and is sound where no expression contains itself: the
  room of the stack gets smaller with each body, and the rank with each step down within it.
* `evaluation_terminates`: evaluations and runs.
-/

namespace Reckon

namespace Machine

variable {doc : Document} {machine final : Machine}

/-- There is nothing left to do with a result that nothing waits for. -/
theorem not_moves_ofResult (result : EStateM.Result Stop CallStack Value) (next : Machine) :
    ¬ Moves doc (ofResult [] result) next := by
  intro h
  cases result <;> cases h

theorem acc_of_reaches (h : Reaches doc machine final) (hfinal : ∀ next, ¬ Moves doc final next) :
    Acc (fun next machine => Moves doc machine next) machine := by
  induction h using Relation.ReflTransGen.head_induction_on with
  | refl =>
    constructor
    intro next hmove
    exact absurd hmove (hfinal next)
  | head hmove _ ih =>
    constructor
    intro next hother
    rw [← hmove.unique hother]
    exact ih

end Machine

/-! ### Stops other than a bound -/

/-- An error of the calculation, or an index out of range. -/
def Stop.Ordinary : Stop → Prop
  | .error _ => True
  | .fault (.outOfRange ..) => True
  | .fault (.noParameter _) | .fault .endless => False

namespace Contract

/-- Assumes nothing, and allows every stop but a bound that was met. -/
def ordinary : Contract where
  env := fun _ => True
  expr := fun _ => True
  stop := Stop.Ordinary

theorem sound_ordinary {doc : Document} (h : doc.Acyclic) (limit : ℕ) :
    ordinary.Sound doc limit := by
  constructor <;> simp [ordinary, Stop.Ordinary, h]

theorem covers_ordinary (doc : Document) : ordinary.Covers doc := by
  constructor <;> simp [ordinary, Stop.Ordinary]

end Contract

namespace Document

variable {doc : Document}

/-- **Evaluation terminates** where no expression contains itself, whatever the definitions call.

* In every environment and on every stack, the machine has no infinite run from an expression. It
  comes to the result of the evaluation, which is a value, an error or an index out of range.
* The same results are all that a run of the document or the evaluation of one expression outside of
  it can have, under every configuration. -/
theorem evaluation_terminates (hacyclic : doc.Acyclic) :
    (∀ (env : Environment) (id : ExprId) (stack : CallStack),
      Acc (fun next machine => Machine.Moves doc machine next) (.start env id stack) ∧
      Machine.Reaches doc (.start env id stack) (.ofResult [] (doc.evalExpr env id stack)) ∧
      ((∃ value, doc.evalExpr env id stack = .ok value stack) ∨
        ∃ stop, doc.evalExpr env id stack = .error stop stack ∧ stop.Ordinary)) ∧
    ∀ evaluator : Evaluator, evaluator.document = doc →
      ((∃ results, evaluator.run.1 = .ok results) ∨
        ∃ stop, evaluator.run.1 = .error stop ∧ stop.Ordinary) ∧
      ∀ id, (∃ value, (evaluator.evalDetached id).1 = .ok value) ∨
        ∃ stop, (evaluator.evalDetached id).1 = .error stop ∧ stop.Ordinary := by
  have hends : ∀ (env : Environment) (id : ExprId) (stack : CallStack),
      (doc.evalExpr env id).Ends (fun _ => True) Stop.Ordinary stack := by
    intro env id stack
    exact (Contract.sound_ordinary hacyclic stack.limit).evalExpr True.intro True.intro
  constructor
  · intro env id stack
    have hfinite : ¬ Machine.Endless (doc.evalExpr env id stack) := by
      rintro ⟨next, hendless⟩
      rcases hends env id stack with ⟨value, hvalue, -⟩ | ⟨stop, hstop, hordinary⟩
      · rw [hendless] at hvalue
        cases hvalue
      · rw [hendless] at hstop
        cases hstop
        exact hordinary
    have hreaches := Machine.performs_evalExpr doc env id stack [] hfinite
    refine ⟨Machine.acc_of_reaches hreaches (Machine.not_moves_ofResult _), hreaches, ?_⟩
    simpa only [EvalM.Ends, and_true] using hends env id stack
  · rintro evaluator rfl
    have hsound := Contract.sound_ordinary hacyclic evaluator.config.maxCallDepth
    exact ⟨(Contract.covers_ordinary _).exists_results hsound,
      fun id => hsound.evalDetached True.intro True.intro⟩

/-- Two functions that call each other, each of them in an argument of the other as well, and an
evaluation that starts with one of them. -/
def mutualCalls : Document where
  exprs := #[.call (some (.parameter ⟨0⟩ 0)) [], .call (some (.definition ⟨1⟩)) [⟨0⟩],
    .call (some (.definition ⟨0⟩)) [⟨1⟩], .binary .add ⟨1⟩ ⟨2⟩]
  definitions := #[{ name := ⟨1⟩, params := [⟨3⟩], body := ⟨1⟩ },
    { name := ⟨2⟩, params := [⟨3⟩], body := ⟨3⟩ }]
  evaluations := #[{ expr := ⟨3⟩, source := none }]
  statements := #[.definition ⟨0⟩, .definition ⟨1⟩, .evaluation ⟨0⟩]

theorem mutualCalls_terminates :
    mutualCalls.Acyclic ∧
      Acc (fun next machine => Machine.Moves mutualCalls machine next)
        (.start (Environment.empty.define ⟨1⟩ (.function ⟨0⟩)) ⟨2⟩ (.new 512)) ∧
      (Evaluator.new mutualCalls { maxCallDepth := 3 }).run.1 =
        .error (.error (.recursionLimit "" ⟨1⟩ 3)) := by
  have h : mutualCalls.Acyclic :=
    (wellFormed_of_earlier (by decide) (by decide) (by decide) (by decide)).acyclic
  exact ⟨h, ((evaluation_terminates h).1 _ _ _).1, rfl⟩

end Document

end Reckon
