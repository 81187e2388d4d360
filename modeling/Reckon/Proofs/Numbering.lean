import Mathlib.Data.List.Range
import Reckon.Proofs.Building

/-!
# Statements are numbered in order

Each statement of a document points into the table of definitions or into that of evaluations. A script
adds to a table and to the statements in one step, so that the statements go through both tables from
the first entry to the last.

* `NodeId.range`: the first indices of a table.
* `Document.Numbered`: the statements go through the definitions and through the evaluations in order.
  Each step keeps this (`Numbered.of_effect`), and so it is in every document that a script builds
  (`numbered_built`).
* `Numbered.nodup_statements`: no statement stands twice.
-/

namespace Reckon

/-! ### Indices in order -/

/-- The first `count` indices of a table, in order. -/
def NodeId.range (kind : NodeKind) (count : Nat) : List (NodeId kind) :=
  (List.range count).map NodeId.mk

namespace NodeId

variable {kind : NodeKind}

theorem range_succ (count : Nat) : range kind (count + 1) = range kind count ++ [⟨count⟩] := by
  rw [range, range, List.range_succ, List.map_append]
  rfl

/-- A list with the first indices in order has as many entries as there are indices. -/
theorem length_of_map_eq_range {α : Type} {f : α → NodeId kind} {list : List α} {count : Nat}
    (h : list.map f = range kind count) : list.length = count := by
  rw [← List.length_map f, h, range, List.length_map, List.length_range]

theorem mem_range {id : NodeId kind} {count : Nat} : id ∈ range kind count ↔ id.index < count := by
  rw [range, List.mem_map]
  constructor
  · intro h
    obtain ⟨index, hindex, rfl⟩ := h
    exact List.mem_range.1 hindex
  · intro h
    exact ⟨id.index, List.mem_range.2 h, rfl⟩

theorem pairwise_range (count : Nat) :
    (range kind count).Pairwise fun a b => a.index < b.index := by
  rw [range, List.pairwise_map]
  exact List.pairwise_lt_range

theorem nodup_range (count : Nat) : (range kind count).Nodup := by
  apply (pairwise_range count).imp
  intro a b hlt heq
  rw [heq] at hlt
  exact Nat.lt_irrefl _ hlt

end NodeId

/-! ### Statements -/

namespace Statement

/-- The definition that a statement makes. -/
def definition? : Statement → Option DefId
  | .definition id => some id
  | .evaluation _ => none

/-- The evaluation that a statement asks for. -/
def evaluation? : Statement → Option EvaluationId
  | .definition _ => none
  | .evaluation id => some id

/-- A statement stands twice only if its definition or its evaluation does. -/
theorem nodup_of_filterMap {statements : List Statement}
    (hdefinitions : (statements.filterMap definition?).Nodup)
    (hevaluations : (statements.filterMap evaluation?).Nodup) : statements.Nodup := by
  induction statements with
  | nil => exact List.nodup_nil
  | cons statement statements ih =>
    cases statement with
    | definition id =>
      simp only [List.filterMap_cons, definition?, List.nodup_cons] at hdefinitions
      simp only [List.filterMap_cons, evaluation?] at hevaluations
      refine List.nodup_cons.2 ⟨?_, ih hdefinitions.2 hevaluations⟩
      intro hmem
      exact hdefinitions.1 (List.mem_filterMap.2 ⟨_, hmem, rfl⟩)
    | evaluation id =>
      simp only [List.filterMap_cons, definition?] at hdefinitions
      simp only [List.filterMap_cons, evaluation?, List.nodup_cons] at hevaluations
      refine List.nodup_cons.2 ⟨?_, ih hdefinitions hevaluations.2⟩
      intro hmem
      exact hevaluations.1 (List.mem_filterMap.2 ⟨_, hmem, rfl⟩)

end Statement

namespace Document

variable {doc next : Document} {step : Step} {built : Built}

/-- The statements go through the tables of definitions and of evaluations in order, and leave nothing
out. -/
structure Numbered (doc : Document) : Prop where
  definitions : doc.statements.toList.filterMap Statement.definition? =
    NodeId.range .definition doc.definitions.size
  evaluations : doc.statements.toList.filterMap Statement.evaluation? =
    NodeId.range .evaluation doc.evaluations.size

theorem numbered_empty : empty.Numbered :=
  ⟨rfl, rfl⟩

theorem Numbered.introduce (h : doc.Numbered) (name : String) (params : List String)
    (body : ExprId) : (doc.introduce name params body).Numbered where
  definitions := by
    simp only [Document.introduce, Array.toList_push, Array.size_push, List.filterMap_append,
      h.definitions, NodeId.range_succ]
    rfl
  evaluations := by
    simp only [Document.introduce, Array.toList_push, List.filterMap_append, h.evaluations]
    exact List.append_nil _

theorem Numbered.pushEvaluation (h : doc.Numbered) (evaluation : Evaluation) :
    ({ doc with
      evaluations := doc.evaluations.push evaluation
      statements := doc.statements.push (.evaluation ⟨doc.evaluations.size⟩) } : Document).Numbered where
  definitions := by
    simp only [Array.toList_push, List.filterMap_append, h.definitions]
    exact List.append_nil _
  evaluations := by
    simp only [Array.toList_push, Array.size_push, List.filterMap_append, h.evaluations,
      NodeId.range_succ]
    rfl

/-- **A step keeps the numbers in order.** -/
theorem Numbered.of_effect (h : doc.Numbered) (heffect : step.Effect doc built next) :
    next.Numbered := by
  cases heffect with
  | declare name params => exact h.introduce name params _
  | define name params body => exact h.introduce name params body
  | evaluate expr source => exact h.pushEvaluation _
  | setBody _ body =>
    refine ⟨?_, h.evaluations⟩
    rw [Array.size_modify]
    exact h.definitions
  | addExpr | addParameter | addPerson | greet | intern => exact ⟨h.definitions, h.evaluations⟩

theorem numbered_built (script : List Step) : (Document.built script).Numbered :=
  build_induction (fun _ _ _ _ _ h heffect => h.of_effect heffect) numbered_empty

theorem Numbered.nodup_statements (h : doc.Numbered) : doc.statements.toList.Nodup := by
  apply Statement.nodup_of_filterMap
  · rw [h.definitions]
    exact NodeId.nodup_range _
  · rw [h.evaluations]
    exact NodeId.nodup_range _

end Document

end Reckon
