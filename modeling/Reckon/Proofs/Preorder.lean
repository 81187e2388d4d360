import Reckon.Document.Walk
import Reckon.Proofs.Rank

/-!
# The order of a walk

A walk carries a state through a recursion. This file takes the two apart: the expressions in the
order in which a walk comes by form a plain list, and the walk folds its visitor over this list.

* `Document.preorder`: an expression, then all that is below each part in turn. It satisfies its own
  recursion where no expression contains itself (`preorder_eq`).
* `Document.visitOrder`: the expressions of all statements.
* `Document.Visited`, `mem_visitOrder`: the expressions that a walk visits are those within the
  expression of a statement.
* `Document.Walkable`: a walk gets through. Well-formed documents are walkable.
* `walk_eq_foldlM`: a walk is a fold over `visitOrder`.
* `Document.follow`, `Document.ways`: ways down by positions. An expression stands in `preorder` as
  often as paths lead to it (`encard_pathsTo`), and in `visitOrder` as often as there are ways to it
  (`count_visitOrder`).
-/

namespace Reckon.Document

variable {doc : Document} {id whole part : ExprId} {height : ℕ}

/-! ### The parts of an expression -/

/-- Operands or arguments in order; none for an index outside of the table. -/
def parts (doc : Document) (id : ExprId) : List ExprId :=
  match doc.exprs[id.index]? with
  | some expr => expr.children
  | none => []

theorem parts_of_expr {expr : Expr} (h : doc.exprs[id.index]? = some expr) :
    doc.parts id = expr.children := by
  rw [parts, h]

theorem child_iff_mem_parts : doc.Child whole part ↔ part ∈ doc.parts whole := by
  rw [Child, parts]
  cases doc.exprs[whole.index]? <;> simp

/-! ### Expressions in preorder -/

/-- An expression and all below it, at most `height` levels deep. -/
def preorderWithin (doc : Document) : (height : ℕ) → ExprId → List ExprId
  | 0, _ => []
  | height + 1, id => id :: (doc.parts id).flatMap (doc.preorderWithin height)

/-- An expression and all below it, a node before its parts, the parts from left to right. A shared
expression is listed once for each way to reach it. -/
def preorder (doc : Document) (id : ExprId) : List ExprId :=
  doc.preorderWithin doc.height id

/-- Any height above the rank lists the same expressions. -/
theorem preorderWithin_eq_preorder (hacyclic : doc.Acyclic) (hrank : doc.rank id < height) :
    doc.preorderWithin height id = doc.preorder id := by
  have hany : ∀ (n m : ℕ) (id : ExprId), doc.rank id < n → doc.rank id < m →
      doc.preorderWithin n id = doc.preorderWithin m id := by
    intro n
    induction n with
    | zero => intro m id hn; omega
    | succ n ih =>
      intro m id hn hm
      obtain ⟨m, rfl⟩ : ∃ k, m = k + 1 := ⟨m - 1, by omega⟩
      rw [preorderWithin, preorderWithin]
      congr 1
      apply List.flatMap_congr
      intro part hpart
      have hlt := rank_lt_of_child (child_iff_mem_parts.2 hpart) (hacyclic id)
      exact ih m part (by omega) (by omega)
  exact hany height doc.height id hrank (doc.rank_lt_height id)

theorem preorder_eq (hacyclic : doc.Acyclic) (id : ExprId) :
    doc.preorder id = id :: (doc.parts id).flatMap doc.preorder := by
  rw [preorder, height, preorderWithin]
  congr 1
  apply List.flatMap_congr
  intro part hpart
  have hlt := rank_lt_of_child (child_iff_mem_parts.2 hpart) (hacyclic id)
  have hle := doc.rank_le_size id
  exact preorderWithin_eq_preorder hacyclic (by omega)

theorem mem_preorder (hacyclic : doc.Acyclic) :
    part ∈ doc.preorder whole ↔ doc.Within whole part := by
  induction whole using induction_of_acyclic hacyclic with
  | step whole ih =>
    rw [preorder_eq hacyclic, List.mem_cons, List.mem_flatMap]
    constructor
    · rintro (rfl | ⟨middle, hmiddle, hpart⟩)
      · exact Within.refl doc part
      · have hchild := child_iff_mem_parts.2 hmiddle
        exact ((ih middle hchild).1 hpart).of_child hchild
    · rintro (rfl | hcontains)
      · exact Or.inl rfl
      · obtain ⟨middle, hchild, hwithin⟩ := hcontains.exists_child
        exact Or.inr ⟨middle, child_iff_mem_parts.1 hchild, (ih middle hchild).2 hwithin⟩

/-! ### Statements -/

/-- The expression of a statement. -/
def root? (doc : Document) : Statement → Option ExprId
  | .definition id => doc.definitions[id.index]?.map (·.body)
  | .evaluation id => doc.evaluations[id.index]?.map (·.expr)

/-- The expressions of a document in the order of a walk. -/
def visitOrder (doc : Document) : List ExprId :=
  doc.statements.toList.flatMap fun statement => (doc.root? statement).toList.flatMap doc.preorder

/-- `id` is within the expression of a statement. -/
def Visited (doc : Document) (id : ExprId) : Prop :=
  ∃ statement ∈ doc.statements, ∃ root, doc.root? statement = some root ∧ doc.Within root id

theorem mem_visitOrder (hacyclic : doc.Acyclic) : id ∈ doc.visitOrder ↔ doc.Visited id := by
  simp only [visitOrder, List.mem_flatMap, Option.mem_toList, mem_preorder hacyclic,
    Array.mem_toList_iff, Visited]

theorem Visited.of_within (h : doc.Visited whole) (hw : doc.Within whole part) :
    doc.Visited part := by
  obtain ⟨statement, hmem, root, hroot, hwithin⟩ := h
  exact ⟨statement, hmem, root, hroot, hwithin.trans hw⟩

/-- A walk gets through: statements and all that is within their expressions are in the tables, and
no expression contains itself. Expressions that no statement leads to may point nowhere. -/
structure Walkable (doc : Document) : Prop where
  hasStatement : ∀ statement ∈ doc.statements, doc.HasStatement statement
  visited_lt : ∀ {id : ExprId}, doc.Visited id → id.index < doc.exprs.size
  acyclic : doc.Acyclic

theorem isRoot_of_root? {statement : Statement} (h : doc.root? statement = some id) :
    doc.IsRoot id := by
  cases statement with
  | definition number =>
    obtain ⟨definition, hget, rfl⟩ := Option.map_eq_some_iff.1 h
    exact Or.inl ⟨definition, Array.mem_of_getElem? hget, rfl⟩
  | evaluation number =>
    obtain ⟨evaluation, hget, rfl⟩ := Option.map_eq_some_iff.1 h
    exact Or.inr ⟨evaluation, Array.mem_of_getElem? hget, rfl⟩

theorem WellFormed.index_lt_of_within (h : doc.WellFormed) (hlt : whole.index < doc.exprs.size)
    (hw : doc.Within whole part) : part.index < doc.exprs.size := by
  rcases hw with rfl | hw
  · exact hlt
  · clear hlt
    induction hw with
    | child hc => exact h.child_lt hc
    | deeper _ _ ih => exact ih

theorem WellFormed.walkable (h : doc.WellFormed) : doc.Walkable where
  hasStatement := h.hasStatement
  visited_lt := by
    rintro id ⟨statement, -, root, hroot, hwithin⟩
    exact h.index_lt_of_within (h.root_lt (isRoot_of_root? hroot)) hwithin
  acyclic := h.acyclic

/-! ### A walk as a fold -/

section Walk

variable {σ : Type} {visit : σ → Visit → Except Fault σ}

/-- Visits an expression, without its parts. -/
def visitExpr (doc : Document) (visit : σ → Visit → Except Fault σ) (state : σ) (id : ExprId) :
    Except Fault σ :=
  doc.expr id >>= fun expr => visit state (.expr id expr)

theorem foldlM_flatMap {α β : Type} {f : α → List β} {step : σ → β → Except Fault σ}
    {walk : σ → α → Except Fault σ} {list : List α}
    (h : ∀ a ∈ list, ∀ state, walk state a = (f a).foldlM step state) (state : σ) :
    list.foldlM walk state = (list.flatMap f).foldlM step state := by
  induction list generalizing state with
  | nil => rfl
  | cons a list ih =>
    rw [List.foldlM_cons, List.flatMap_cons, List.foldlM_append, h a List.mem_cons_self]
    congr 1
    funext next
    exact ih (fun b hb => h b (List.mem_cons_of_mem a hb)) next

/-- The walk below an expression visits it and all below it in preorder, up to the first fault. -/
theorem walkExpr_eq_foldlM (hacyclic : doc.Acyclic) (hrank : doc.rank id < height) (state : σ) :
    doc.walkExpr visit height state id = (doc.preorder id).foldlM (doc.visitExpr visit) state := by
  induction height generalizing id state with
  | zero => exact absurd hrank (Nat.not_lt_zero _)
  | succ height ih =>
    rw [walkExpr, preorder_eq hacyclic, List.foldlM_cons, visitExpr]
    cases hexpr : doc.expr id with
    | error fault => rfl
    | ok expr =>
      show (visit state (.expr id expr) >>= _) = (visit state (.expr id expr) >>= _)
      congr 1
      funext next
      have hparts := parts_of_expr (expr_eq_ok.1 hexpr)
      rw [← hparts]
      apply foldlM_flatMap
      intro part hpart state
      have hlt := rank_lt_of_child (child_iff_mem_parts.2 hpart) (hacyclic id)
      exact ih (by omega) state

/-- **A walk is a fold over `visitOrder`**, for a visitor that passes by the statements themselves. -/
theorem walk_eq_foldlM (hacyclic : doc.Acyclic)
    (hstatement : ∀ statement ∈ doc.statements, doc.HasStatement statement)
    (hdefinition : ∀ state id definition, visit state (.definition id definition) = .ok state)
    (hevaluation : ∀ state id evaluation, visit state (.evaluation id evaluation) = .ok state)
    (state : σ) :
    doc.walk visit state = doc.visitOrder.foldlM (doc.visitExpr visit) state := by
  apply foldlM_flatMap
  intro statement hmem state
  have hhas := hstatement statement (Array.mem_toList_iff.1 hmem)
  cases statement with
  | definition id =>
    have hget : doc.definitions[id.index]? = some doc.definitions[id.index] :=
      Array.getElem?_eq_getElem hhas
    rw [walkStatement, definition_eq_ok.2 hget, root?, hget]
    show (visit state (.definition id _) >>= _) = _
    rw [hdefinition]
    show doc.walkExpr visit doc.height state _ = _
    rw [walkExpr_eq_foldlM hacyclic (doc.rank_lt_height _)]
    simp
  | evaluation id =>
    have hget : doc.evaluations[id.index]? = some doc.evaluations[id.index] :=
      Array.getElem?_eq_getElem hhas
    rw [walkStatement, evaluation_eq_ok.2 hget, root?, hget]
    show (visit state (.evaluation id _) >>= _) = _
    rw [hevaluation]
    show doc.walkExpr visit doc.height state _ = _
    rw [walkExpr_eq_foldlM hacyclic (doc.rank_lt_height _)]
    simp

end Walk

/-! ### Ways by positions -/

/-- The expression reached from another one by the part at each position of `path` in turn. -/
def follow (doc : Document) : ExprId → (path : List ℕ) → Option ExprId
  | id, [] => some id
  | id, i :: path => (doc.parts id)[i]?.bind fun part => doc.follow part path

/-- The ways to an expression: the position of a statement, and the positions to take from there. -/
def ways (doc : Document) (id : ExprId) : Set (ℕ × List ℕ) :=
  {way | ∃ statement root, doc.statements[way.1]? = some statement ∧
    doc.root? statement = some root ∧ doc.follow root way.2 = some id}

/-- The positions to take from `root` to an expression. -/
def pathsTo (doc : Document) (id root : ExprId) : Set (List ℕ) :=
  {path | doc.follow root path = some id}

/-- The ways to an expression from the entries of a list, each of which may have a start. -/
def waysFrom {α : Type} (doc : Document) (id : ExprId) (start : α → Option ExprId)
    (list : List α) : Set (ℕ × List ℕ) :=
  {way | ∃ a root, list[way.1]? = some a ∧ start a = some root ∧ way.2 ∈ doc.pathsTo id root}

section WaysFrom

variable {α : Type} {start : α → Option ExprId}

/-- A way from a list starts at its head, or is a way from its tail with the position moved by one. -/
theorem waysFrom_cons (a : α) (list : List α) :
    doc.waysFrom id start (a :: list) =
      Prod.mk 0 '' {path | ∃ root, start a = some root ∧ path ∈ doc.pathsTo id root} ∪
        Prod.map (· + 1) (fun path => path) '' doc.waysFrom id start list := by
  ext ⟨k, path⟩
  cases k <;> simp [waysFrom]

theorem encard_pathsTo_start {a : α}
    (h : ∀ root, start a = some root →
      (doc.pathsTo id root).encard = (doc.preorder root).count id) :
    {path | ∃ root, start a = some root ∧ path ∈ doc.pathsTo id root}.encard =
      ((start a).toList.flatMap doc.preorder).count id := by
  cases hstart : start a with
  | none => simp
  | some root =>
    simp only [Option.some.injEq, exists_eq_left', Option.toList_some, List.flatMap_cons,
      List.flatMap_nil, List.append_nil]
    exact h root hstart

/-- Ways from a list are as many as the occurrences below its entries. -/
theorem encard_waysFrom {list : List α}
    (h : ∀ a ∈ list, ∀ root, start a = some root →
      (doc.pathsTo id root).encard = (doc.preorder root).count id) :
    (doc.waysFrom id start list).encard =
      (list.flatMap fun a => (start a).toList.flatMap doc.preorder).count id := by
  induction list with
  | nil => simp [waysFrom]
  | cons a list ih =>
    have hdisjoint : Disjoint
        (Prod.mk 0 '' {path | ∃ root, start a = some root ∧ path ∈ doc.pathsTo id root})
        (Prod.map (· + 1) (fun path => path) '' doc.waysFrom id start list) := by
      rw [Set.disjoint_left]
      rintro _ ⟨path, -, rfl⟩ ⟨⟨k, path'⟩, -, heq⟩
      simp at heq
    have hshift : Function.Injective
        (Prod.map (· + 1) (fun path => path) : ℕ × List ℕ → ℕ × List ℕ) :=
      (add_left_injective 1).prodMap fun _ _ h => h
    rw [waysFrom_cons, Set.encard_union_eq hdisjoint, (Prod.mk_right_injective 0).encard_image,
      hshift.encard_image, encard_pathsTo_start (h a List.mem_cons_self),
      ih fun b hb => h b (List.mem_cons_of_mem a hb), List.flatMap_cons, List.count_append,
      Nat.cast_add]

end WaysFrom

/-- A path stays where it is, or takes a part first. -/
theorem pathsTo_eq (doc : Document) (id root : ExprId) :
    doc.pathsTo id root = {path | path = [] ∧ root = id} ∪
      (fun way : ℕ × List ℕ => way.1 :: way.2) '' doc.waysFrom id some (doc.parts root) := by
  ext path
  cases path with
  | nil => simp [pathsTo, follow]
  | cons i path => simp [pathsTo, waysFrom, follow, Option.bind_eq_some_iff]

theorem encard_pathsTo (hacyclic : doc.Acyclic) (id root : ExprId) :
    (doc.pathsTo id root).encard = (doc.preorder root).count id := by
  induction root using induction_of_acyclic hacyclic with
  | step root ih =>
    have hdisjoint : Disjoint {path : List ℕ | path = [] ∧ root = id}
        ((fun way : ℕ × List ℕ => way.1 :: way.2) '' doc.waysFrom id some (doc.parts root)) := by
      rw [Set.disjoint_left]
      rintro _ ⟨rfl, -⟩ ⟨way, -, heq⟩
      simp at heq
    have hcons : Function.Injective (fun way : ℕ × List ℕ => way.1 :: way.2) := by
      rintro ⟨i, path⟩ ⟨j, path'⟩ heq
      simpa using heq
    have hself : {path : List ℕ | path = [] ∧ root = id}.encard = ([root].count id : ℕ) := by
      by_cases heq : root = id <;> simp [heq]
    have hparts : (doc.waysFrom id some (doc.parts root)).encard =
        ((doc.parts root).flatMap fun part => (some part).toList.flatMap doc.preorder).count id := by
      apply encard_waysFrom
      rintro part hpart _ ⟨⟩
      exact ih part (child_iff_mem_parts.2 hpart)
    rw [pathsTo_eq, Set.encard_union_eq hdisjoint, hcons.encard_image, hself, hparts,
      preorder_eq hacyclic root, ← Nat.cast_add, ← List.count_append]
    simp

/-- **A walk comes by an expression once for each way to it.** -/
theorem count_visitOrder (hacyclic : doc.Acyclic) (id : ExprId) :
    (doc.visitOrder.count id : ℕ∞) = (doc.ways id).encard := by
  have h : (doc.waysFrom id doc.root? doc.statements.toList).encard = doc.visitOrder.count id :=
    encard_waysFrom fun _ _ root _ => encard_pathsTo hacyclic id root
  have hways : doc.ways id = doc.waysFrom id doc.root? doc.statements.toList := by
    simp [ways, waysFrom, pathsTo]
  rw [← h, hways]

end Reckon.Document
