import Reckon.Proofs.CallDepth
import Reckon.Proofs.Moments
import Reckon.Proofs.VisitedCode

/-!
# Calls without recursion

The limit on the depth of calls is there for functions that call themselves. This file shows that other
documents do not meet it: if functions can be ranked so that each of them calls only functions of a
smaller rank, then the ranks bound the depth. Only calls in a body open frames inside of one another.
The arguments of a call are evaluated before its frame is opened, however deep they are nested.

* `Document.Mentions`: a call goes by the name of a function.
* `Document.Ranked`: ranks get smaller from a function to the functions that its body mentions.
* `Document.Fits`: at this depth, every function that the expression mentions has room for itself and
  for all the frames below it. This is so at the start of a statement and is handed on to parts and
  bodies (`handsOn_fits`).
* `recursionLimit_not_met`: the runs of a document.
-/

namespace Reckon.Document

variable {doc : Document} {rank : DefId → ℕ} {stack : CallStack} {env : Environment} {id : ExprId}

/-! ### Ranks of functions -/

/-- The name that a call goes by. Other expressions have none, and neither has a call without a link. -/
def calledName? (doc : Document) (id : ExprId) : Option Name :=
  match doc.exprs[id.index]? with
  | some (.call target _) => target.bind doc.targetName?
  | _ => none

/-- The expression is a call that goes by the name of this function, though another definition of the
name may be found in its place. -/
def Mentions (doc : Document) (call : ExprId) (function : DefId) : Prop :=
  ∃ definition, doc.definitions[function.index]? = some definition ∧ definition.isFunction = true ∧
    doc.calledName? call = some definition.name

/-- From a function to those that are mentioned anywhere in its body, the rank gets smaller. -/
def Ranked (doc : Document) (rank : DefId → ℕ) : Prop :=
  ∀ {caller callee : DefId} {definition : Definition} {call : ExprId},
    doc.definitions[caller.index]? = some definition → definition.isFunction = true →
    doc.Within definition.body call → doc.Mentions call callee → rank callee < rank caller

/-- The ranks of a document can be checked by going through the bodies of its functions. -/
theorem ranked_of_preorder (hacyclic : doc.Acyclic)
    (h : ∀ i (_ : i < doc.definitions.size), doc.definitions[i].isFunction = true →
      ∀ call ∈ doc.preorder doc.definitions[i].body, ∀ j (_ : j < doc.definitions.size),
        doc.definitions[j].isFunction = true →
        doc.calledName? call = some doc.definitions[j].name → rank ⟨j⟩ < rank ⟨i⟩) :
    doc.Ranked rank := by
  intro caller callee definition call hd hf hwithin hmentions
  obtain ⟨other, hother, hfunction, hname⟩ := hmentions
  obtain ⟨hi, rfl⟩ := Array.getElem?_eq_some_iff.1 hd
  obtain ⟨hj, rfl⟩ := Array.getElem?_eq_some_iff.1 hother
  exact h caller.index hi hf call ((mem_preorder hacyclic).2 hwithin) callee.index hj hfunction hname

/-- A call that finds a function mentions it. -/
theorem Calls.mentions {function : DefId} {definition : Definition} {args : List ExprId}
    (h : doc.Calls env id function definition args) (henv : env.Functions doc.Introduces) :
    doc.Mentions id function := by
  obtain ⟨-, hpos, target, hexpr, hname⟩ := h.introduced henv
  refine ⟨definition, h.definition_eq, Definition.isFunction_iff.2 hpos, ?_⟩
  rw [calledName?, hexpr]
  exact hname

/-! ### Depth and rank -/

/-- Functions go by the names that statements give them, and there is room for every function that is
mentioned within the expression, and for as many more frames as its rank says. -/
def Fits (doc : Document) (rank : DefId → ℕ) (stack : CallStack) (env : Environment)
    (id : ExprId) : Prop :=
  env.Functions doc.Introduces ∧
    ∀ call callee, doc.Within id call → doc.Mentions call callee →
      stack.depth + rank callee < stack.limit

theorem handsOn_fits (h : doc.Ranked rank) : doc.HandsOn (doc.Fits rank) where
  part hfits hchild := ⟨hfits.1, fun call callee hwithin => hfits.2 call callee (hwithin.of_child hchild)⟩
  body := by
    intro stack inner env call function definition args values hfits hcalls _ _ hpush
    refine ⟨hfits.1.bindAll _ values, ?_⟩
    intro deep callee hwithin hmentions
    obtain ⟨-, hpos, -⟩ := hcalls.introduced hfits.1
    have hroom : stack.depth + rank function < stack.limit :=
      hfits.2 call function (.refl doc call) (hcalls.mentions hfits.1)
    have hless : rank callee < rank function :=
      h hcalls.definition_eq (Definition.isFunction_iff.2 hpos) hwithin hmentions
    have hdepth := CallStack.depth_of_push hpush
    have hlimit := CallStack.limit_of_push hpush
    omega

/-- Where there is room for the functions that are mentioned, no frame is refused. -/
theorem Fits.not_isRecursionLimit {error : EvalError} (h : doc.Fits rank stack env id)
    (hraises : doc.Raises stack env id (.error error)) : ¬ error.IsRecursionLimit := by
  cases hraises with
  | unlinked _ _ => exact fun hlimit => hlimit
  | arity _ _ => exact fun hlimit => hlimit
  | full hcalls _ hfull =>
    have hroom := h.2 id _ (.refl doc id) (hcalls.mentions h.1)
    omega

/-- A statement starts without frames, so that it is enough for the ranks to be below the limit. -/
theorem not_isRecursionLimit_of_reports {evaluator : Evaluator} {error : EvalError}
    (hranked : evaluator.document.Ranked rank)
    (hbound : ∀ (number : DefId) (definition : Definition),
      evaluator.document.definitions[number.index]? = some definition →
      definition.isFunction = true → rank number < evaluator.config.maxCallDepth)
    (hreports : evaluator.Reports error) : ¬ error.IsRecursionLimit := by
  have hstart : ∀ (env : Environment) (root : ExprId),
      env.Functions evaluator.document.Introduces →
      evaluator.document.Fits rank (.new evaluator.config.maxCallDepth) env root := by
    intro env root henv
    refine ⟨henv, ?_⟩
    intro call callee _ hmentions
    obtain ⟨definition, hd, hf, -⟩ := hmentions
    have hless := hbound callee definition hd hf
    show 0 + rank callee < evaluator.config.maxCallDepth
    omega
  obtain ⟨origin, env, id, hfits, hraises⟩ := (handsOn_fits hranked).exists_raises_of_reports
    (fun env _ root henv _ _ => hstart env root henv) hreports
  exact hfits.not_isRecursionLimit hraises

/-- **Without recursion the limit is not met.** In a walkable document, let every function have a rank
greater than that of each function that a call anywhere in its body goes by the name of. If all ranks
are below the limit on the depth of calls, then a run gives results or ends with an error, and no error
on record and no error that it ends with is about the limit. This is so under both policies, and however
deep calls are nested in the arguments of one another. -/
theorem recursionLimit_not_met {evaluator : Evaluator} (h : evaluator.document.Walkable)
    (hranked : evaluator.document.Ranked rank)
    (hbound : ∀ (number : DefId) (definition : Definition),
      evaluator.document.definitions[number.index]? = some definition →
      definition.isFunction = true → rank number < evaluator.config.maxCallDepth) :
    (∃ results, evaluator.run.1 = .ok results ∧ results.WithinLimit) ∨
      ∃ error, evaluator.run.1 = .error (.error error) ∧ ¬ error.IsRecursionLimit := by
  rcases (Contract.covers_visiting h).exists_results (Contract.sound_visiting h _) with
    ⟨results, hrun⟩ | ⟨stop, hrun, error, rfl⟩
  · refine Or.inl ⟨results, hrun, ?_⟩
    intro error hrecords
    exact not_isRecursionLimit_of_reports hranked hbound (Or.inr ⟨results, hrun, hrecords⟩)
  · exact Or.inr ⟨error, hrun, not_isRecursionLimit_of_reports hranked hbound (Or.inl hrun)⟩

/-- The function `f` squares, and the body of `g` is `f (f (f x))`. The evaluation is
`g (f (g (g 3)))`. -/
def squares : Document where
  exprs := #[.number ⟨0x4008000000000000⟩, .call (some (.parameter ⟨0⟩ 0)) [], .binary .mul ⟨1⟩ ⟨1⟩,
    .call (some (.parameter ⟨1⟩ 0)) [], .call (some (.definition ⟨0⟩)) [⟨3⟩],
    .call (some (.definition ⟨0⟩)) [⟨4⟩], .call (some (.definition ⟨0⟩)) [⟨5⟩],
    .call (some (.definition ⟨1⟩)) [⟨0⟩], .call (some (.definition ⟨1⟩)) [⟨7⟩],
    .call (some (.definition ⟨0⟩)) [⟨8⟩], .call (some (.definition ⟨1⟩)) [⟨9⟩]]
  definitions := #[{ name := ⟨1⟩, params := [⟨3⟩], body := ⟨2⟩ },
    { name := ⟨2⟩, params := [⟨3⟩], body := ⟨6⟩ }]
  evaluations := #[{ expr := ⟨10⟩, source := none }]
  statements := #[.definition ⟨0⟩, .definition ⟨1⟩, .evaluation ⟨0⟩]

/-- Two frames are enough for all these calls, and one is not. -/
theorem squares_recursionLimit :
    squares.Walkable ∧ squares.Ranked NodeId.index ∧
      (∀ policy, (∃ results, (Evaluator.new squares
          { maxCallDepth := 2, errorPolicy := policy }).run.1 = .ok results ∧
            results.WithinLimit) ∨
        ∃ error, (Evaluator.new squares { maxCallDepth := 2, errorPolicy := policy }).run.1 =
          .error (.error error) ∧ ¬ error.IsRecursionLimit) ∧
      (Evaluator.new squares { maxCallDepth := 1 }).run.1 =
        .error (.error (.recursionLimit "" ⟨4⟩ 1)) := by
  have hw : squares.Walkable :=
    (wellFormed_of_earlier (by decide) (by decide) (by decide) (by decide)).walkable
  have hranked : squares.Ranked NodeId.index := ranked_of_preorder hw.acyclic (by decide)
  have hbound : ∀ (number : DefId) (definition : Definition),
      squares.definitions[number.index]? = some definition →
      definition.isFunction = true → number.index < 2 := by
    intro number definition hd _
    exact (Array.getElem?_eq_some_iff.1 hd).1
  refine ⟨hw, hranked, ?_, rfl⟩
  intro policy
  exact @recursionLimit_not_met NodeId.index
    (.new squares { maxCallDepth := 2, errorPolicy := policy }) hw hranked hbound

end Reckon.Document
