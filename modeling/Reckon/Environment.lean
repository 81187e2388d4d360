import Reckon.Node
import Reckon.Value
import Std.Data.ExtTreeMap

/-!
# Environments

An environment says what each name is bound to at some point of an evaluation. It is a value: to
define a name gives a new environment, and every environment taken before stays as it was.

* `Binding`, `Environment`, `Environment.define`, `Environment.lookup`.
* `Environment.bindAll`: the parameters of a function bound to the values of its arguments.
* `Family`: environments made one from the other, with the operations on them as data.
-/

namespace Reckon

/-- What a name stands for. -/
inductive Binding where
  /-- A variable or parameter, with its value. -/
  | value (value : Value)
  /-- A function, to be evaluated at each call. -/
  | function (id : DefId)
deriving DecidableEq, Repr

/-- Equality of bindings, with values compared as numbers. -/
def Binding.equal : Binding → Binding → Bool
  | .value v, .value w => v.equal w
  | .function f, .function g => f = g
  | _, _ => false

/-- Equality of what two names are bound to; two unbound names are equal. -/
def Binding.equalLookups : Option Binding → Option Binding → Bool
  | some a, some b => a.equal b
  | none, none => true
  | _, _ => false

/-- The bindings of names. -/
structure Environment where
  bindings : Std.ExtTreeMap Name Binding

namespace Environment

/-- The environment in which no name is bound. -/
def empty : Environment := ⟨∅⟩

instance : Inhabited Environment := ⟨empty⟩

/-- Binds a name, in place of an earlier binding if there is one. -/
def define (env : Environment) (name : Name) (binding : Binding) : Environment :=
  ⟨env.bindings.insert name binding⟩

/-- The binding of a name. -/
def lookup (env : Environment) (name : Name) : Option Binding :=
  env.bindings[name]?

/-- The number of names bound. -/
def size (env : Environment) : Nat :=
  env.bindings.size

/-- Whether no name is bound. -/
def isEmpty (env : Environment) : Bool :=
  env.bindings.isEmpty

/-- Binds names to values, one after the other: of equal names the last wins. -/
def bindAll (env : Environment) (names : List Name) (values : List Value) : Environment :=
  (names.zip values).foldl (fun env (name, value) => env.define name (.value value)) env

@[ext]
theorem ext {a b : Environment} (h : ∀ name, a.lookup name = b.lookup name) : a = b := by
  cases a; cases b
  exact congrArg mk (Std.ExtTreeMap.ext_getElem? h)

@[simp]
theorem lookup_empty (name : Name) : empty.lookup name = none := by
  simp [empty, lookup]

theorem lookup_define (env : Environment) (name other : Name) (binding : Binding) :
    (env.define name binding).lookup other =
      if name = other then some binding else env.lookup other := by
  simp [define, lookup, Std.ExtTreeMap.getElem?_insert]

@[simp]
theorem lookup_define_self (env : Environment) (name : Name) (binding : Binding) :
    (env.define name binding).lookup name = some binding := by
  simp [lookup_define]

/-! ### Families -/

/-- Environments by number, the first of them empty. -/
structure Family where
  members : Array Environment := #[empty]

/-- What can be done to a family. -/
inductive Family.Change where
  | new
  /-- Adds a copy of a member as it is now. -/
  | snapshot (member : Nat)
  | define (member : Nat) (name : Name) (binding : Binding)
deriving DecidableEq, Repr

namespace Family

/-- The member with a number. A number that was never given out stands for an empty
environment. -/
def member (family : Family) (number : Nat) : Environment :=
  family.members[number]?.getD empty

/-- The family after a change. -/
def apply (family : Family) : Change → Family
  | .new => ⟨family.members.push empty⟩
  | .snapshot number => ⟨family.members.push (family.member number)⟩
  | .define number name binding => ⟨family.members.modify number (·.define name binding)⟩

/-- The family after a list of changes. -/
def applyAll (family : Family) (changes : List Change) : Family :=
  changes.foldl apply family

end Family

end Environment

end Reckon
