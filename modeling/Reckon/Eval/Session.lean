import Reckon.Eval.Pass

/-!
# Sessions

A session puts requests to one evaluator, one after the other, and compares its runs.

* `Request`, `Reply`: what can be asked, and the answers.
* `Session.handle`: the answer to a request, and the session after it. A run that meets a fault has
  no results and is not remembered.
-/

namespace Reckon

/-- What can be asked of a session. -/
inductive Request where
  | run
  /-- The value of one expression, with no name bound. -/
  | detached (expr : ExprId)
  | config
  /-- Whether the first and the last run gave equal results. -/
  | same
deriving DecidableEq, Repr

/-- The answers. -/
inductive Reply where
  | run (results : Except Stop Results)
  | detached (value : Except Stop Value)
  | config (config : Config)
  | same (equal : Bool)

/-- What a run without a fault comes to: results, or the error that ended the pass. -/
abbrev RunOutcome := Except EvalError Results

/-- Equality of run outcomes, with values compared as numbers. -/
def RunOutcome.equal : RunOutcome → RunOutcome → Bool
  | .ok a, .ok b => a.equal b
  | .error e, .error f => e = f
  | _, _ => false

/-- The outcome of a run, if it met no fault. -/
def RunOutcome.ofRun? : Except Stop Results → Option RunOutcome
  | .ok results => some (.ok results)
  | .error (.error error) => some (.error error)
  | .error (.fault _) => none

/-- An evaluator with the runs that are compared. -/
structure Session where
  evaluator : Evaluator
  first : Option RunOutcome := none
  last : Option RunOutcome := none

namespace Session

/-- A session on a document. -/
def new (document : Document) (settings : List Setting) : Session :=
  { evaluator := .new document (.ofSettings settings) }

/-- Remembers a run. -/
def remember (session : Session) (run : Except Stop Results) : Session :=
  match RunOutcome.ofRun? run with
  | some outcome => { session with first := session.first <|> some outcome, last := some outcome }
  | none => session

/-- Answers a request. -/
def handle (session : Session) : Request → Reply × Session
  | .run =>
    let (results, evaluator) := session.evaluator.run
    (.run results, { session with evaluator }.remember results)
  | .detached expr =>
    let (value, evaluator) := session.evaluator.evalDetached expr
    (.detached value, { session with evaluator })
  | .config => (.config session.evaluator.config, session)
  | .same =>
    let equal :=
      match session.first, session.last with
      | some first, some last => first.equal last
      | _, _ => true
    (.same equal, session)

/-- Answers requests in order. -/
def handleAll (session : Session) : List Request → List Reply
  | [] => []
  | request :: requests =>
    let (reply, session) := session.handle request
    reply :: session.handleAll requests

end Session

end Reckon
