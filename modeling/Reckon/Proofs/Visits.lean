import Reckon.Proofs.Preorder

/-!
# The stops of a walk

A visitor sees statements and expressions, each with the node found there. This file lists what it
sees, and shows that a walk that gets through is a fold of the visitor over the list, faults of the
visitor included.

* `Document.stops`: each statement, followed by the expressions below it in preorder.
* `walk_eq_foldlM_stops`: the walk as a fold over them.
* `exists_walk`: a visitor without faults meets none.
* `exists_visits`: the nodes that a walk comes by, and which expressions are among them.
-/

namespace Reckon.Document

variable {doc : Document} {id : ExprId} {statement : Statement}

/-- The stop at an expression; none if it is outside of the table. -/
def exprStop? (doc : Document) (id : ExprId) : Option Visit :=
  doc.exprs[id.index]?.map (.expr id)

/-- The stop at a statement, before its expression. -/
def statementStop? (doc : Document) : Statement → Option Visit
  | .definition id => doc.definitions[id.index]?.map (.definition id)
  | .evaluation id => doc.evaluations[id.index]?.map (.evaluation id)

/-- The stops below a statement, itself included. -/
def stopsAt (doc : Document) (statement : Statement) : List Visit :=
  (doc.statementStop? statement).toList ++
    ((doc.root? statement).toList.flatMap doc.preorder).flatMap fun id => (doc.exprStop? id).toList

/-- The stops of a walk through the document, in order. -/
def stops (doc : Document) : List Visit :=
  doc.statements.toList.flatMap doc.stopsAt

section Walk

variable {σ : Type} {visit : σ → Visit → Except Fault σ}

theorem foldlM_toList (visit : σ → Visit → Except Fault σ) (stop : Visit) (state : σ) :
    (some stop).toList.foldlM visit state = visit state stop := by
  show visit state stop >>= pure = _
  rw [bind_pure]

/-- Below an expression that a walk comes by, it is a fold over the stops. -/
theorem walkExpr_eq_foldlM_stops (hw : doc.Walkable) (hv : doc.Visited id) (state : σ) :
    doc.walkExpr visit doc.height state id =
      ((doc.preorder id).flatMap fun id => (doc.exprStop? id).toList).foldlM visit state := by
  rw [walkExpr_eq_foldlM hw.acyclic (doc.rank_lt_height id)]
  apply foldlM_flatMap
  intro part hpart state
  have hlt := hw.visited_lt (hv.of_within ((mem_preorder hw.acyclic).1 hpart))
  have hget : doc.exprs[part.index]? = some doc.exprs[part.index] := Array.getElem?_eq_getElem hlt
  rw [visitExpr, expr_eq_ok.2 hget, exprStop?, hget, Option.map_some, foldlM_toList]
  rfl

theorem walkStatement_eq_foldlM_stops (hw : doc.Walkable) (hmem : statement ∈ doc.statements)
    (state : σ) :
    doc.walkStatement visit state statement = (doc.stopsAt statement).foldlM visit state := by
  have hhas := hw.hasStatement statement hmem
  rw [stopsAt, List.foldlM_append]
  cases statement with
  | definition number =>
    have hget : doc.definitions[number.index]? = some doc.definitions[number.index] :=
      Array.getElem?_eq_getElem hhas
    have hroot : doc.root? (.definition number) = some doc.definitions[number.index].body := by
      rw [root?, hget]
      rfl
    rw [walkStatement, definition_eq_ok.2 hget, statementStop?, hget, Option.map_some,
      foldlM_toList, hroot, Option.toList_some, List.flatMap_singleton]
    show (visit state (.definition number _) >>= _) = _
    congr 1
    funext next
    exact walkExpr_eq_foldlM_stops hw ⟨_, hmem, _, hroot, Within.refl doc _⟩ next
  | evaluation number =>
    have hget : doc.evaluations[number.index]? = some doc.evaluations[number.index] :=
      Array.getElem?_eq_getElem hhas
    have hroot : doc.root? (.evaluation number) = some doc.evaluations[number.index].expr := by
      rw [root?, hget]
      rfl
    rw [walkStatement, evaluation_eq_ok.2 hget, statementStop?, hget, Option.map_some,
      foldlM_toList, hroot, Option.toList_some, List.flatMap_singleton]
    show (visit state (.evaluation number _) >>= _) = _
    congr 1
    funext next
    exact walkExpr_eq_foldlM_stops hw ⟨_, hmem, _, hroot, Within.refl doc _⟩ next

/-- **A walk is a fold over its stops.** -/
theorem walk_eq_foldlM_stops (hw : doc.Walkable) (state : σ) :
    doc.walk visit state = doc.stops.foldlM visit state := by
  apply foldlM_flatMap
  intro statement hmem state
  exact walkStatement_eq_foldlM_stops hw (Array.mem_toList_iff.1 hmem) state

/-- A visitor that has no faults of its own gets through. -/
theorem exists_walk (hw : doc.Walkable)
    (hvisit : ∀ state stop, ∃ next, visit state stop = .ok next) (state : σ) :
    ∃ final, doc.walk visit state = .ok final := by
  rw [walk_eq_foldlM_stops hw]
  induction doc.stops generalizing state with
  | nil => exact ⟨state, rfl⟩
  | cons stop stops ih =>
    obtain ⟨next, hnext⟩ := hvisit state stop
    obtain ⟨final, hfinal⟩ := ih next
    refine ⟨final, ?_⟩
    rw [List.foldlM_cons, hnext]
    exact hfinal

end Walk

/-! ### The nodes of a walk -/

theorem foldlM_push_node (stops : List Visit) (nodes : Array Node) :
    stops.foldlM (fun nodes stop => .ok (nodes.push stop.node)) nodes =
      (.ok (nodes ++ (stops.map Visit.node).toArray) : Except Fault (Array Node)) := by
  induction stops generalizing nodes with
  | nil =>
    rw [List.map_nil, Array.append_empty]
    rfl
  | cons stop stops ih =>
    rw [List.foldlM_cons]
    show stops.foldlM _ (nodes.push stop.node) = _
    rw [ih, List.map_cons]
    simp

theorem visits_eq (hw : doc.Walkable) : doc.visits = .ok (doc.stops.map Visit.node).toArray := by
  rw [visits, walk_eq_foldlM_stops hw, foldlM_push_node, Array.empty_append]

theorem node_of_exprStop? {stop : Visit} (h : doc.exprStop? id = some stop) : stop.node = id.node := by
  obtain ⟨expr, -, rfl⟩ := Option.map_eq_some_iff.1 h
  rfl

/-- The stop at a statement is not at an expression. -/
theorem node_ne_of_statementStop? {stop : Visit} (h : doc.statementStop? statement = some stop) :
    stop.node ≠ id.node := by
  cases statement with
  | definition number =>
    obtain ⟨definition, -, rfl⟩ := Option.map_eq_some_iff.1 h
    rintro ⟨⟩
  | evaluation number =>
    obtain ⟨evaluation, -, rfl⟩ := Option.map_eq_some_iff.1 h
    rintro ⟨⟩

theorem mem_stops (hacyclic : doc.Acyclic) {stop : Visit} :
    stop ∈ doc.stops ↔
      (∃ statement ∈ doc.statements, doc.statementStop? statement = some stop) ∨
        ∃ id, doc.Visited id ∧ doc.exprStop? id = some stop := by
  simp only [stops, stopsAt, List.mem_flatMap, List.mem_append, Option.mem_toList,
    mem_preorder hacyclic, Array.mem_toList_iff, Visited]
  constructor
  · rintro ⟨statement, hmem, hstop | ⟨id, ⟨root, hroot, hwithin⟩, hstop⟩⟩
    · exact Or.inl ⟨statement, hmem, hstop⟩
    · exact Or.inr ⟨id, ⟨statement, hmem, root, hroot, hwithin⟩, hstop⟩
  · rintro (⟨statement, hmem, hstop⟩ | ⟨id, ⟨statement, hmem, root, hroot, hwithin⟩, hstop⟩)
    · exact ⟨statement, hmem, Or.inl hstop⟩
    · exact ⟨statement, hmem, Or.inr ⟨id, ⟨root, hroot, hwithin⟩, hstop⟩⟩

theorem node_mem_stops (hw : doc.Walkable) :
    id.node ∈ doc.stops.map Visit.node ↔ doc.Visited id := by
  rw [List.mem_map]
  constructor
  · rintro ⟨stop, hstop, hnode⟩
    rcases (mem_stops hw.acyclic).1 hstop with ⟨statement, -, hs⟩ | ⟨other, hv, hs⟩
    · exact absurd hnode (node_ne_of_statementStop? hs)
    · rw [node_of_exprStop? hs] at hnode
      rw [← NodeId.node_injective hnode]
      exact hv
  · intro hv
    obtain ⟨expr, hexpr⟩ : ∃ expr, doc.exprs[id.index]? = some expr :=
      ⟨_, Array.getElem?_eq_getElem (hw.visited_lt hv)⟩
    have hstop : doc.exprStop? id = some (.expr id expr) := by
      rw [exprStop?, hexpr]
      rfl
    exact ⟨_, (mem_stops hw.acyclic).2 (Or.inr ⟨id, hv, hstop⟩), rfl⟩

/-- The walk of a document comes by an expression exactly if it is within that of a statement. -/
theorem exists_visits (hw : doc.Walkable) :
    ∃ nodes, doc.visits = .ok nodes ∧ ∀ id : ExprId, id.node ∈ nodes ↔ doc.Visited id :=
  ⟨_, visits_eq hw, fun _ => List.mem_toArray.trans (node_mem_stops hw)⟩

end Reckon.Document
