import Reckon.Proofs.Contract

/-!
# Evaluation answers

The evaluation of an expression could fail to answer in two ways: it could follow an index that
points nowhere, and it could run into one of the bounds on which it recurs. This file shows that in a
well-formed document neither happens.

* `EvalM.Answers`: an action ends with a value or with an error of the calculation, and leaves the
  stack as it was.
* `Environment.Known`: the functions bound in an environment are definitions of the document.
* `Contract.answering`: such an environment and an expression in the table are enough, as they are
  handed on to parts and bodies.
* `evalExpr_answers`, `run_answers`: expressions and whole documents.
-/

namespace Reckon

/-! ### Actions that answer -/

namespace EvalM

variable {α : Type} {stack : CallStack}

/-- An action ends with a value or an error, not with a fault, and leaves the stack as it was. -/
def Answers (action : EvalM α) (stack : CallStack) : Prop :=
  (∃ a, action stack = .ok a stack) ∨ ∃ error, action stack = .error (.error error) stack

theorem Ends.answers {values : α → Prop} {stops : Stop → Prop} {action : EvalM α}
    (h : action.Ends values stops stack) (hstops : ∀ fault, ¬ stops (.fault fault)) :
    action.Answers stack := by
  rcases h with ⟨a, ha, -⟩ | ⟨error | fault, hs, hstop⟩
  · exact Or.inl ⟨a, ha⟩
  · exact Or.inr ⟨error, hs⟩
  · exact absurd hstop (hstops fault)

theorem Answers.attempt {action : EvalM α} (h : action.Answers stack) :
    ∃ outcome, attempt action stack = .ok outcome stack := by
  rcases h with ⟨a, ha⟩ | ⟨error, he⟩
  · exact ⟨.ok a, by rw [EvalM.attempt, ha]⟩
  · exact ⟨.error error, by rw [EvalM.attempt, he]⟩

end EvalM

/-! ### Environments that know their functions -/

namespace Environment

variable {doc : Document} {env : Environment}

/-- Every function bound in the environment is a definition of the document. -/
def Known (doc : Document) (env : Environment) : Prop :=
  ∀ (name : Name) (id : DefId), env.lookup name = some (.function id) →
    id.index < doc.definitions.size

theorem known_empty (doc : Document) : empty.Known doc :=
  functions_empty _

theorem Known.define {name : Name} {binding : Binding} (h : env.Known doc)
    (hb : ∀ id, binding = .function id → id.index < doc.definitions.size) :
    (env.define name binding).Known doc :=
  Functions.define h hb

theorem Known.define_value {name : Name} {value : Value} (h : env.Known doc) :
    (env.define name (.value value)).Known doc :=
  Functions.define_value h

theorem Known.bindAll (h : env.Known doc) (names : List Name) (values : List Value) :
    (env.bindAll names values).Known doc :=
  Functions.bindAll h names values

end Environment

/-! ### Evaluation -/

namespace Contract

variable {doc : Document}

/-- Assumes that the functions and the expression are in their tables, and allows errors only. -/
def answering (doc : Document) : Contract where
  env := Environment.Known doc
  expr := fun id => id.index < doc.exprs.size
  stop := fun stop => ∃ error, stop = .error error

theorem not_answering_fault (doc : Document) (fault : Fault) :
    ¬ (answering doc).stop (.fault fault) := by
  rintro ⟨error, ⟨⟩⟩

theorem sound_answering (h : doc.WellFormed) (limit : ℕ) : (answering doc).Sound doc limit where
  part _ hchild := h.child_lt hchild
  bindAll names values hknown := hknown.bindAll names values
  body _ hcalls :=
    h.root_lt (Or.inl ⟨_, Array.mem_of_getElem? hcalls.definition_eq, rfl⟩)
  noExpr hlt hle := absurd hlt (Nat.not_lt.2 hle)
  noDefinition hknown hbinding hle := absurd (hknown _ _ hbinding) (Nat.not_lt.2 hle)
  unlinked _ _ _ := ⟨_, rfl⟩
  arity _ _ _ _ := ⟨_, rfl⟩
  full _ _ _ _ := ⟨_, rfl⟩
  endless := Or.inl h.acyclic

theorem covers_answering (h : doc.WellFormed) : (answering doc).Covers doc where
  start := Environment.known_empty doc
  root _ hroot := h.root_lt (Document.isRoot_of_root? hroot)
  function hknown _ hd _ := by
    apply hknown.define
    rintro _ ⟨⟩
    exact Array.getElem?_eq_some_iff.1 hd |>.1
  value _ _ hknown := hknown.define_value
  noStatement hmem hnot := absurd (h.hasStatement _ hmem) hnot

end Contract

namespace Document

variable {doc : Document} {env : Environment} {id : ExprId}

/-- **Evaluation answers.** In a well-formed document an expression comes to a value or an error of
the calculation, on any stack, and leaves the stack as it was. -/
theorem evalExpr_answers (h : doc.WellFormed) (hk : env.Known doc)
    (hid : id.index < doc.exprs.size) (stack : CallStack) :
    (doc.evalExpr env id).Answers stack :=
  ((Contract.sound_answering h stack.limit).evalExpr hk hid).answers
    (Contract.not_answering_fault doc)

end Document

namespace Evaluator

variable {evaluator : Evaluator} {id : ExprId}

theorem evalDetached_answers (h : evaluator.document.WellFormed)
    (hid : id.index < evaluator.document.exprs.size) :
    (∃ value, (evaluator.evalDetached id).1 = .ok value) ∨
      ∃ error, (evaluator.evalDetached id).1 = .error (.error error) := by
  have hknown := Environment.known_empty evaluator.document
  rcases (Contract.sound_answering h _).evalDetached hknown hid with
    hvalue | ⟨_, herror, error, rfl⟩
  · exact Or.inl hvalue
  · exact Or.inr ⟨error, herror⟩

theorem run_answers (h : evaluator.document.WellFormed) :
    (∃ results, evaluator.run.1 = .ok results) ∨
      ∃ error, evaluator.run.1 = .error (.error error) := by
  rcases (Contract.covers_answering h).exists_results (Contract.sound_answering h _) with
    hresults | ⟨_, herror, error, rfl⟩
  · exact Or.inl hresults
  · exact Or.inr ⟨error, herror⟩

end Evaluator

end Reckon
