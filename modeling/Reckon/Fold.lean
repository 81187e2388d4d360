import Reckon.Document.Basic
import Reckon.Value
import Std.Data.ExtTreeMap

/-!
# Constant folding

An expression folds to a number if it is built from literals by operators, without a division by
zero. Calls do not fold, whatever they call, so that folding may miss a constant and never makes one
up.

* `Document.foldPlain`: folding as a plain recursion.
* `Folder`: folding that remembers what it has folded, so that a shared expression is folded once.
  Both operands of an operator are folded, also when the left one is unknown.
* `Document.fold`: the fold of an expression, from a folder that remembers nothing yet.
-/

namespace Reckon

/-- The folds remembered so far. -/
abbrev FoldCache := Std.ExtTreeMap ExprId Value

/-- Folding with a memory, which may meet a fault of the document. -/
abbrev Folder := StateT FoldCache (Except Fault)

namespace Document

/-- Folds an expression that nests at most `height` levels deep. -/
def foldPlain (doc : Document) : (height : Nat) → ExprId → Except Fault Value
  | 0, _ => .error .endless
  | height + 1, id => do
    match ← doc.expr id with
    | .number value => return some value
    | .binary op left right =>
      let left ← doc.foldPlain height left
      let right ← doc.foldPlain height right
      return Value.fold op left right
    | .call .. | .error => return none

/-- Folds an expression that nests at most `height` levels deep, unless its fold is remembered, and
remembers it. -/
def foldWith (doc : Document) : (height : Nat) → ExprId → Folder Value
  | 0, _ => throw .endless
  | height + 1, id => do
    match (← get)[id]? with
    | some value => return value
    | none =>
      let value ←
        match ← doc.expr id with
        | .number value => pure (some value)
        | .binary op left right => do
          let left ← doc.foldWith height left
          let right ← doc.foldWith height right
          pure (Value.fold op left right)
        | .call .. | .error => pure none
      modify (·.insert id value)
      return value

/-- Folds an expression within a longer folding. -/
def foldNext (doc : Document) (id : ExprId) : Folder Value :=
  doc.foldWith doc.height id

/-- The number that an expression folds to, or none. -/
def fold (doc : Document) (id : ExprId) : Except Fault Value :=
  (doc.foldNext id).run' ∅

/-! ### One level of a fold -/

variable {doc : Document} {height : Nat} {id : ExprId} {cache : FoldCache}

theorem foldWith_of_remembered {value : Value} (hc : cache[id]? = some value) :
    (doc.foldWith (height + 1) id).run cache = .ok (value, cache) := by
  rw [foldWith]
  show (match cache[id]? with | some value => pure value | none => _ : Folder Value).run cache = _
  rw [hc]
  rfl

/-- What is not remembered is looked up, folded by its kind and remembered. -/
theorem foldWith_of_new (hc : cache[id]? = none) :
    (doc.foldWith (height + 1) id).run cache =
      doc.expr id >>= fun expr =>
        match expr with
        | .number value => .ok (some value, cache.insert id (some value))
        | .binary op left right => do
          let (left, cache) ← (doc.foldWith height left).run cache
          let (right, cache) ← (doc.foldWith height right).run cache
          .ok (Value.fold op left right, cache.insert id (Value.fold op left right))
        | .call .. | .error => .ok (none, cache.insert id none) := by
  rw [foldWith]
  show (match cache[id]? with | some value => _ | none => _ : Folder Value).run cache = _
  rw [hc]
  cases doc.expr id with
  | error fault => rfl
  | ok expr =>
    cases expr with
    | number value => rfl
    | binary op left right =>
      show (do
        let left ← doc.foldWith height left
        let right ← doc.foldWith height right
        modify (·.insert id (Value.fold op left right))
        return Value.fold op left right : Folder Value).run cache = _
      simp only [StateT.run_bind, StateT.run_modify, StateT.run_pure]
      rfl
    | call target args => rfl
    | error => rfl

end Document

end Reckon
