import Reckon.Eval.Session
import Reckon.Proofs.ErrorPolicy
import Reckon.Proofs.Machine

/-!
# The call stack is balanced

Every frame that is opened for a body is closed after it, on all ways out: a value, an error in the
body, or a stop that comes from further down. This file shows it at every moment of an evaluation,
for every document, and what follows for runs and sessions.

* `Machine.Opened`: a stack is another one with a frame for each body that is waited for. Each move
  keeps this (`Moves.opened`), and so does any number of them (`Reaches.opened`).
* `Contract.anything`: the contract that allows everything and so says only that the stack is left as
  it was.
* `Session.getElem?_handleAll`: no request leaves anything behind for the next one.
* `callStack_balanced`: all of it together.
-/

namespace Reckon

namespace Machine

variable {doc : Document} {base stack inner : CallStack} {task : Task} {tasks : List Task}
  {machine next : Machine}

/-! ### Open frames -/

/-- `stack` is `base` with one more frame for each body among the tasks, innermost first. -/
inductive Opened (doc : Document) (base : CallStack) : List Task → CallStack → Prop
  | base : Opened doc base [] base
  | wait {task : Task} {tasks : List Task} {stack : CallStack} (h : task ≠ .leave)
      (rest : Opened doc base tasks stack) : Opened doc base (task :: tasks) stack
  | enter {tasks : List Task} {frame : Frame} {stack inner : CallStack}
      (h : CallStack.push doc frame stack = .ok () inner)
      (rest : Opened doc base tasks stack) : Opened doc base (.leave :: tasks) inner

theorem Opened.rest (h : Opened doc base (task :: tasks) stack) (htask : task ≠ .leave) :
    Opened doc base tasks stack := by
  cases h with
  | wait _ rest => exact rest
  | enter hpush rest => exact absurd rfl htask

/-- A frame that is closed is the one that was opened last. -/
theorem Opened.pop (h : Opened doc base (.leave :: tasks) stack) :
    Opened doc base tasks stack.pop := by
  cases h with
  | wait hne rest => exact absurd rfl hne
  | enter hpush rest =>
    rw [CallStack.pop_of_push hpush]
    exact rest

theorem Opened.limit_eq (h : Opened doc base tasks stack) : stack.limit = base.limit := by
  induction h with
  | base => rfl
  | wait _ _ ih => exact ih
  | enter hpush _ ih => rw [CallStack.limit_of_push hpush, ih]

theorem Opened.depth_le (h : Opened doc base tasks stack) : base.depth ≤ stack.depth := by
  induction h with
  | base => exact Nat.le_refl _
  | wait _ _ ih => exact ih
  | enter hpush _ ih =>
    have hdepth := CallStack.depth_of_push hpush
    omega

theorem Opened.depth_le_limit (h : Opened doc base tasks stack) (hbase : base.depth ≤ base.limit) :
    stack.depth ≤ base.limit := by
  induction h with
  | base => exact hbase
  | wait _ _ ih => exact ih
  | enter hpush rest _ =>
    have hdepth := CallStack.depth_of_push hpush
    have hlimit := rest.limit_eq
    omega

theorem Opened.depth_pos (h : Opened doc base (.leave :: tasks) stack) : 0 < stack.depth := by
  cases h with
  | wait hne _ => exact absurd rfl hne
  | enter hpush _ =>
    have hdepth := CallStack.depth_of_push hpush
    omega

/-! ### Moves keep frames and tasks together -/

theorem Moves.opened (h : Moves doc machine next) (ho : Opened doc base machine.tasks machine.stack) :
    Opened doc base next.tasks next.stack := by
  cases h with
  | number | unreadable | noExpr | unlinked | unbound | bound | noDefinition | arity | call =>
    exact ho
  | binary | argument => exact .wait (by simp) ho
  | enter hpush => exact .enter hpush ho
  | refuse hpush =>
    rw [CallStack.eq_of_push_eq_error hpush]
    exact ho
  | left => exact .wait (by simp) (ho.rest (by simp))
  | right | next => exact ho.rest (by simp)
  | drop hne => exact ho.rest hne
  | leave | unwind => exact ho.pop

theorem Reaches.opened (h : Reaches doc machine next)
    (ho : Opened doc base machine.tasks machine.stack) : Opened doc base next.tasks next.stack := by
  induction h with
  | refl => exact ho
  | tail _ hmove ih => exact hmove.opened ih

/-- At every moment of an evaluation the frames of the start are there, the limit is as it was and is
kept if it was kept at the start, and a frame that is to be closed is there. -/
theorem Reaches.bounded {env : Environment} {id : ExprId}
    (h : Reaches doc (.start env id stack) machine) :
    machine.stack.limit = stack.limit ∧ stack.depth ≤ machine.stack.depth ∧
      (stack.depth ≤ stack.limit → machine.stack.depth ≤ stack.limit) ∧
      ∀ tasks, machine.tasks = .leave :: tasks → 0 < machine.stack.depth := by
  have hopened : Opened doc stack machine.tasks machine.stack := h.opened .base
  refine ⟨hopened.limit_eq, hopened.depth_le, hopened.depth_le_limit, ?_⟩
  intro tasks htasks
  rw [htasks] at hopened
  exact hopened.depth_pos

end Machine

/-! ### The stack after an evaluation -/

namespace Contract

/-- Assumes nothing and allows every stop. -/
def anything : Contract where
  env := fun _ => True
  expr := fun _ => True
  stop := fun _ => True

theorem sound_anything (doc : Document) (limit : ℕ) : anything.Sound doc limit := by
  constructor <;> simp [anything]

theorem covers_anything (doc : Document) : anything.Covers doc := by
  constructor <;> simp [anything]

end Contract

namespace EvalM

variable {α : Type} {values : α → Prop} {stops : Stop → Prop} {action : EvalM α}
  {stack next : CallStack}

theorem Ends.eq_of_ok {a : α} (h : action.Ends values stops stack) (ha : action stack = .ok a next) :
    next = stack := by
  rcases h with ⟨b, hb, -⟩ | ⟨stop, hs, -⟩
  · rw [ha] at hb
    cases hb
    rfl
  · rw [ha] at hs
    cases hs

theorem Ends.eq_of_error {stop : Stop} (h : action.Ends values stops stack)
    (hs : action stack = .error stop next) : next = stack := by
  rcases h with ⟨b, hb, -⟩ | ⟨other, ho, -⟩
  · rw [hs] at hb
    cases hb
  · rw [hs] at ho
    cases ho
    rfl

end EvalM

namespace Document

theorem evalExpr_ends (doc : Document) (env : Environment) (id : ExprId) (stack : CallStack) :
    (doc.evalExpr env id).Ends (fun _ => True) Contract.anything.stop stack :=
  (Contract.sound_anything doc stack.limit).evalExpr True.intro True.intro

/-- The statements of a document up to any of them. -/
theorem runList_ends {doc : Document} {before after : List Statement}
    (h : doc.statements.toList = before ++ after) (policy : ErrorPolicy) (depth : ℕ) :
    (doc.runList policy before).Ends Contract.anything.Holds Contract.anything.stop
      (.new depth) := by
  have hmem : ∀ statement ∈ before, statement ∈ doc.statements := by
    intro statement hstatement
    rw [← Array.mem_toList_iff, h]
    exact List.mem_append_left _ hstatement
  have hcovers := Contract.covers_anything doc
  exact hcovers.foldlM (Contract.sound_anything doc depth) hmem hcovers.holds_start

end Document

/-! ### Sessions -/

/-- What an evaluator answers does not depend on the stack that was left in it. -/
theorem Evaluator.perform_new {α : Type} (evaluator : Evaluator) (action : EvalM α) :
    (evaluator.perform action).1 =
      ((Evaluator.new evaluator.document evaluator.config).perform action).1 := by
  simp only [perform, new]

namespace Session

theorem evaluator_remember (session : Session) (run : Except Stop Results) :
    (session.remember run).evaluator = session.evaluator := by
  unfold remember
  cases RunOutcome.ofRun? run <;> rfl

theorem handle_keeps (session : Session) (request : Request) :
    (session.handle request).2.evaluator.document = session.evaluator.document ∧
      (session.handle request).2.evaluator.config = session.evaluator.config := by
  cases request with
  | run =>
    simp only [handle, evaluator_remember, Evaluator.run, Evaluator.perform]
    split <;> simp
  | detached expr =>
    simp only [handle, Evaluator.evalDetached, Evaluator.perform]
    split <;> simp
  | config => exact ⟨rfl, rfl⟩
  | same => exact ⟨rfl, rfl⟩

/-- Runs and single evaluations are answered as by an evaluator that was just set up, whatever was
asked before. -/
theorem getElem?_handleAll (session : Session) (requests : List Request) (i : ℕ) :
    (requests[i]? = some .run →
      (session.handleAll requests)[i]? =
        some (.run (Evaluator.new session.evaluator.document session.evaluator.config).run.1)) ∧
    ∀ id, requests[i]? = some (.detached id) →
      (session.handleAll requests)[i]? =
        some (.detached ((Evaluator.new session.evaluator.document
          session.evaluator.config).evalDetached id).1) := by
  induction requests generalizing session i with
  | nil => simp
  | cons request requests ih =>
    cases i with
    | zero =>
      simp only [List.getElem?_cons_zero, Option.some.injEq, handleAll]
      refine ⟨?_, ?_⟩
      · rintro rfl
        exact congrArg Reply.run (session.evaluator.perform_new _)
      · rintro id rfl
        exact congrArg Reply.detached (session.evaluator.perform_new _)
    | succ i =>
      obtain ⟨hdocument, hconfig⟩ := session.handle_keeps request
      have hrest := ih (session.handle request).2 i
      rw [hdocument, hconfig] at hrest
      simpa only [List.getElem?_cons_succ, handleAll] using hrest

end Session

/-- **The call stack is balanced**, in every document.

* An evaluation that comes to a value or an error leaves the stack as it was, and so do the
  statements of a run, which starts with no frame at all.
* An evaluation with an end is a run of the machine from the expression to the result. At every
  moment of it, and also where there is no end, no frame of the start has been closed, the limit is
  kept if it was kept at the start, and a frame that is to be closed is there.
* In a session, however requests are mixed, each run and each evaluation of an expression is answered
  as by an evaluator that was just set up. -/
theorem Document.callStack_balanced (doc : Document) :
    (∀ (env : Environment) (id : ExprId) (stack : CallStack),
      (∀ value next, doc.evalExpr env id stack = .ok value next → next = stack) ∧
      (∀ error next, doc.evalExpr env id stack = .error (.error error) next → next = stack) ∧
      (¬ Machine.Endless (doc.evalExpr env id stack) →
        Machine.Reaches doc (.start env id stack) (.ofResult [] (doc.evalExpr env id stack))) ∧
      ∀ machine, Machine.Reaches doc (.start env id stack) machine →
        machine.stack.limit = stack.limit ∧ stack.depth ≤ machine.stack.depth ∧
        (stack.depth ≤ stack.limit → machine.stack.depth ≤ stack.limit) ∧
        ∀ tasks, machine.tasks = .leave :: tasks → 0 < machine.stack.depth) ∧
    (∀ (policy : ErrorPolicy) (depth : ℕ) (before after : List Statement),
      doc.statements.toList = before ++ after →
      (∀ pass next, doc.runList policy before (.new depth) = .ok pass next → next = .new depth) ∧
      ∀ error next, doc.runList policy before (.new depth) = .error (.error error) next →
        next = .new depth) ∧
    ∀ session : Session, session.evaluator.document = doc →
      ∀ (requests : List Request) (i : ℕ),
        (requests[i]? = some .run →
          (session.handleAll requests)[i]? =
            some (.run (Evaluator.new doc session.evaluator.config).run.1)) ∧
        ∀ id, requests[i]? = some (.detached id) →
          (session.handleAll requests)[i]? =
            some (.detached ((Evaluator.new doc session.evaluator.config).evalDetached id).1) := by
  refine ⟨?_, ?_, ?_⟩
  · intro env id stack
    have hends := doc.evalExpr_ends env id stack
    exact ⟨fun _ _ h => hends.eq_of_ok h, fun _ _ h => hends.eq_of_error h,
      Machine.performs_evalExpr doc env id stack [], fun _ h => h.bounded⟩
  · intro policy depth before after hsplit
    have hends := runList_ends hsplit policy depth
    exact ⟨fun _ _ h => hends.eq_of_ok h, fun _ _ h => hends.eq_of_error h⟩
  · rintro session rfl requests i
    exact session.getElem?_handleAll requests i

end Reckon
