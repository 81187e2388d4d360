import Reckon.Document.Build
import Reckon.Document.Walk
import Reckon.Document.WellFormed
import Reckon.Eval.Session
import Reckon.Proofs.ArityChecking
import Reckon.Proofs.Balance
import Reckon.Proofs.Building
import Reckon.Proofs.BuiltDocuments
import Reckon.Proofs.CallDepth
import Reckon.Proofs.CallRanks
import Reckon.Proofs.Contract
import Reckon.Proofs.ErrorPolicy
import Reckon.Proofs.ErrorReports
import Reckon.Proofs.Evaluation
import Reckon.Proofs.FoldDomain
import Reckon.Proofs.FoldMemory
import Reckon.Proofs.Folding
import Reckon.Proofs.Growth
import Reckon.Proofs.LaterSteps
import Reckon.Proofs.Machine
import Reckon.Proofs.Moments
import Reckon.Proofs.Numbering
import Reckon.Proofs.Observation
import Reckon.Proofs.OperatorLeaves
import Reckon.Proofs.Preorder
import Reckon.Proofs.Rank
import Reckon.Proofs.Recursion
import Reckon.Proofs.ResultTable
import Reckon.Proofs.Scope
import Reckon.Proofs.SelfCalls
import Reckon.Proofs.Simulation
import Reckon.Proofs.Statements
import Reckon.Proofs.Termination
import Reckon.Proofs.Validation
import Reckon.Proofs.Variables
import Reckon.Proofs.Visits
import Reckon.Validate.Basic
import Reckon.Proofs.BuildHistory
import Reckon.Proofs.Alignment
import Reckon.Proofs.Renaming
import Reckon.Proofs.Sharing
import Reckon.Proofs.UncalledDefinitions
import Reckon.Proofs.CallRules
import Reckon.Proofs.Greetings
import Reckon.Proofs.Interning
import Reckon.Proofs.WalkOrder
import Reckon.Proofs.EnvironmentHistory
import Reckon.Proofs.DynamicScope
import Reckon.Proofs.Rendering
import Reckon.Text.Uppercase
