/-!
# Nodes and names

Everything in a document is reached through an index into one of its tables. An index is typed by
the table it points into, so that a definition cannot be asked for by the index of an expression.

* `NodeKind`: the tables of a document.
* `NodeId kind`: an index into the table `kind`, with the abbreviations `ExprId`, `DefId`,
  `EvaluationId`, `PersonId` and `GreetingId`. Indices into one table are ordered.
* `Node`: any node at all, as a diagnostic points to it.
* `Name`: an interned text, ordered by its index.
-/

namespace Reckon

/-- The tables of a document that a node can stand in. -/
inductive NodeKind where
  | expr
  | definition
  | evaluation
  | person
  | greeting
deriving DecidableEq, Repr

namespace NodeKind

/-- The word for a node of this kind in a diagnostic. -/
def word : NodeKind → String
  | .expr => "expression"
  | .definition => "definition"
  | .evaluation => "evaluation"
  | .person => "person"
  | .greeting => "greeting"

/-- The word for an index into this table. -/
def idWord : NodeKind → String
  | .expr => "ExprId"
  | .definition => "DefId"
  | .evaluation => "EvaluationId"
  | .person => "PersonId"
  | .greeting => "GreetingId"

end NodeKind

/-- An index into the table `kind` of a document. It need not be in range. -/
structure NodeId (kind : NodeKind) where
  index : Nat
deriving DecidableEq, Hashable, Repr

namespace NodeId

variable {kind : NodeKind}

instance : Ord (NodeId kind) := ⟨compareOn index⟩

instance : Std.TransOrd (NodeId kind) :=
  inferInstanceAs (Std.TransCmp (compareOn index))

instance : Std.LawfulEqOrd (NodeId kind) where
  eq_of_compare {a b} h := by
    cases a; cases b
    exact congrArg mk (Nat.compare_eq_eq.1 h)

end NodeId

/-- An index into the expressions. -/
abbrev ExprId := NodeId .expr

/-- An index into the definitions. -/
abbrev DefId := NodeId .definition

/-- An index into the evaluation statements. -/
abbrev EvaluationId := NodeId .evaluation

/-- An index into the persons. -/
abbrev PersonId := NodeId .person

/-- An index into the greetings. -/
abbrev GreetingId := NodeId .greeting

/-- Writes the table and the index, as in `ExprId(3)`. -/
def NodeId.render {kind : NodeKind} (id : NodeId kind) : String :=
  s!"{kind.idWord}({id.index})"

/-- A node of a document, whatever its kind. -/
structure Node where
  kind : NodeKind
  index : Nat
deriving DecidableEq, Repr

/-- The node that an index points to. -/
def NodeId.node {kind : NodeKind} (id : NodeId kind) : Node :=
  ⟨kind, id.index⟩

theorem NodeId.node_injective {kind : NodeKind} {a b : NodeId kind} (h : a.node = b.node) :
    a = b := by
  cases a; cases b
  cases h
  rfl

/-- Writes the kind and the index, as in `expression #3`. -/
def Node.render (node : Node) : String :=
  s!"{node.kind.word} #{node.index}"

/-! ### Names -/

/-- A text that has been interned, by its index. -/
structure Name where
  index : Nat
deriving DecidableEq, Hashable, Repr

namespace Name

/-- The name of the empty text, which every interner holds from the start. -/
def empty : Name := ⟨0⟩

instance : Inhabited Name := ⟨empty⟩

/-- Writes the index, as in `Name(3)`. -/
def render (name : Name) : String :=
  s!"Name({name.index})"

instance : Ord Name := ⟨compareOn index⟩

instance : Std.TransOrd Name :=
  inferInstanceAs (Std.TransCmp (compareOn index))

instance : Std.LawfulEqOrd Name where
  eq_of_compare {a b} h := by
    cases a; cases b
    exact congrArg mk (Nat.compare_eq_eq.1 h)

end Name

end Reckon
