/-!
# Faults

A document may hold indices that point nowhere: they are not checked when it is built. An operation
that follows such an index stops with a fault. A fault is not a result of the calculator, as an
evaluation error is, and no error policy catches it.

* `Fault`: what went wrong, and `Fault.message` its text.
* `fetch`: the one way to read a table.
-/

namespace Reckon

/-- Why an operation could not go on. -/
inductive Fault where
  /-- A table with `size` nodes was read at `index`. -/
  | outOfRange (size index : Nat)
  /-- A parameter was asked for that the definition does not have. -/
  | noParameter (index : Nat)
  /-- A walk went deeper than the expressions can nest, because one of them contains itself. -/
  | endless
deriving DecidableEq, Repr

/-- The text of a fault. -/
def Fault.message : Fault → String
  | .outOfRange size index => s!"index out of bounds: the len is {size} but the index is {index}"
  | .noParameter index => s!"definition has no parameter {index}"
  | .endless => "expression contains itself"

/-- Reads a table, with a fault outside of it. -/
def fetch {α : Type} (table : Array α) (index : Nat) : Except Fault α :=
  match table[index]? with
  | some a => .ok a
  | none => .error (.outOfRange table.size index)

theorem fetch_eq_ok {α : Type} {table : Array α} {index : Nat} {a : α} :
    fetch table index = .ok a ↔ table[index]? = some a := by
  unfold fetch
  split <;> simp_all

theorem fetch_eq_error {α : Type} {table : Array α} {index : Nat} {fault : Fault} :
    fetch table index = .error fault ↔
      table.size ≤ index ∧ fault = .outOfRange table.size index := by
  unfold fetch
  split <;> simp_all [eq_comm]
  · rename_i h
    exact fun hle => absurd h (by simp [hle])

/-- A sequence of two actions succeeds if the first does, and the second does on its answer. -/
theorem bind_eq_ok {α β : Type} {action : Except Fault α} {next : α → Except Fault β} {b : β} :
    action >>= next = .ok b ↔ ∃ a, action = .ok a ∧ next a = .ok b := by
  cases action with
  | ok a =>
    show next a = .ok b ↔ _
    simp
  | error fault =>
    show Except.error fault = .ok b ↔ _
    simp

end Reckon
