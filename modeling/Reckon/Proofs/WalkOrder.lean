import Mathlib.Data.List.Forall2
import Mathlib.Data.List.Lex
import Reckon.Proofs.Visits

/-!
# A walk takes every way once, in order

An expression can be reached in several ways: from several statements, through several parts, or
twice through the same one. This file shows that a walk takes every way exactly once, and in which
order.

* `Document.Earlier`: which of two ways is taken first. It is the order of the positions
  (`earlier_iff_lt`).
* `Document.Enumerates`: a list has all ways, in order, and another one has the expressions that they
  lead to.
* `exists_enumerates_pathsTo`, `exists_enumerates_ways`: there are such lists for the paths below an
  expression and for the ways of a document. The induction is on the expression, and within it on the
  list of its parts.
* `Document.noteExpr`: the visitor that notes the expressions.
* `walk_takes_ways`: all of it together.
-/

namespace Reckon.Document

variable {doc : Document} {id root : ExprId}

/-! ### The order of ways -/

/-- A way is taken before another one. -/
inductive Earlier : ℕ × List ℕ → ℕ × List ℕ → Prop
  /-- It starts at an earlier statement. -/
  | statement {k l : ℕ} {path other : List ℕ} (h : k < l) : Earlier (k, path) (l, other)
  /-- It ends above the other one. -/
  | above {k : ℕ} {path rest : List ℕ} (h : rest ≠ []) : Earlier (k, path) (k, path ++ rest)
  /-- It takes an earlier part where the two ways part. -/
  | part {k i j : ℕ} {path rest other : List ℕ} (h : i < j) :
      Earlier (k, path ++ i :: rest) (k, path ++ j :: other)

theorem earlier_cons {k i : ℕ} {path other : List ℕ} (h : Earlier (k, path) (k, other)) :
    Earlier (k, i :: path) (k, i :: other) := by
  cases h with
  | statement h => omega
  | above h => exact .above h
  | @part _ _ _ path _ _ h =>
    show Earlier (k, (i :: path) ++ _ :: _) (k, (i :: path) ++ _ :: _)
    exact .part h

theorem earlier_of_lt {k : ℕ} {path other : List ℕ} (h : path < other) :
    Earlier (k, path) (k, other) := by
  induction path generalizing other with
  | nil =>
    show Earlier (k, []) (k, [] ++ other)
    apply Earlier.above
    intro hother
    rw [hother] at h
    exact absurd h (lt_irrefl _)
  | cons i path ih =>
    cases other with
    | nil => simp at h
    | cons j other =>
      obtain hlt | ⟨heq, hlt⟩ := List.cons_lt_cons_iff.1 h
      · show Earlier (k, [] ++ i :: path) (k, [] ++ j :: other)
        exact .part hlt
      · rw [heq]
        exact earlier_cons (ih hlt)

/-- Ways are taken in the order of their positions, that of the statement first. -/
theorem earlier_iff_lt {way other : ℕ × List ℕ} :
    Earlier way other ↔ way.1 :: way.2 < other.1 :: other.2 := by
  constructor
  · intro h
    cases h with
    | statement h => exact List.cons_lt_cons_iff.2 (Or.inl h)
    | @above _ path rest h =>
      obtain ⟨i, rest, rfl⟩ := List.exists_cons_of_ne_nil h
      have hlt : path ++ [] < path ++ i :: rest := List.Lex.append_left _ .nil path
      rw [List.append_nil] at hlt
      exact List.cons_lt_cons_iff.2 (Or.inr ⟨rfl, hlt⟩)
    | @part _ _ _ path _ _ h =>
      exact List.cons_lt_cons_iff.2 (Or.inr ⟨rfl, List.Lex.append_left _ (.rel h) path⟩)
  · intro h
    obtain ⟨k, path⟩ := way
    obtain ⟨l, rest⟩ := other
    obtain hlt | ⟨heq, hlt⟩ := List.cons_lt_cons_iff.1 h
    · exact .statement hlt
    · cases heq
      exact earlier_of_lt hlt

/-! ### All ways in a list -/

/-- `ways` lists all that leads to an expression, in order, and `ids` where it leads to. -/
structure Enumerates {β : Type} (before : β → β → Prop) (leads : β → ExprId → Prop)
    (ways : List β) (ids : List ExprId) : Prop where
  forall₂ : List.Forall₂ leads ways ids
  sorted : ways.Pairwise before
  complete : ∀ way id, leads way id → way ∈ ways

section Enumerations

variable {α : Type} {start : α → Option ExprId}

theorem exists_enumerates_start {a : α}
    (h : ∀ root, start a = some root → ∃ paths, Enumerates (· < ·)
      (fun path id => path ∈ doc.pathsTo id root) paths (doc.preorder root)) :
    ∃ paths, Enumerates (· < ·)
      (fun path id => ∃ root, start a = some root ∧ path ∈ doc.pathsTo id root) paths
      ((start a).toList.flatMap doc.preorder) := by
  cases hstart : start a with
  | none => exact ⟨[], .nil, .nil, by simp⟩
  | some root =>
    obtain ⟨paths, hpaths⟩ := h root hstart
    refine ⟨paths, ?_⟩
    simpa using hpaths

/-- The ways from the head of a list come first, then those from its tail with the position moved by
one. -/
theorem exists_enumerates_waysFrom {list : List α}
    (h : ∀ a ∈ list, ∀ root, start a = some root → ∃ paths, Enumerates (· < ·)
      (fun path id => path ∈ doc.pathsTo id root) paths (doc.preorder root)) :
    ∃ ways, Enumerates Earlier (fun way id => way ∈ doc.waysFrom id start list) ways
      (list.flatMap fun a => (start a).toList.flatMap doc.preorder) := by
  induction list with
  | nil => exact ⟨[], .nil, .nil, by simp [waysFrom]⟩
  | cons a list ih =>
    obtain ⟨paths, hpaths⟩ := exists_enumerates_start (h a List.mem_cons_self)
    obtain ⟨ways, hways⟩ := ih fun b hb => h b (List.mem_cons_of_mem a hb)
    refine ⟨paths.map (Prod.mk 0) ++ ways.map (Prod.map (· + 1) fun path => path), ?_, ?_, ?_⟩
    · rw [List.flatMap_cons]
      apply List.rel_append
      · rw [List.forall₂_map_left_iff]
        apply hpaths.forall₂.imp
        intro path id hpath
        rw [waysFrom_cons]
        exact Or.inl ⟨path, hpath, rfl⟩
      · rw [List.forall₂_map_left_iff]
        apply hways.forall₂.imp
        intro way id hway
        rw [waysFrom_cons]
        exact Or.inr ⟨way, hway, rfl⟩
    · rw [List.pairwise_append, List.pairwise_map, List.pairwise_map]
      refine ⟨hpaths.sorted.imp earlier_of_lt, hways.sorted.imp ?_, ?_⟩
      · intro way other hearlier
        rw [earlier_iff_lt, List.cons_lt_cons_iff] at hearlier ⊢
        simpa using hearlier
      · intro way hway other hother
        obtain ⟨path, -, hpath⟩ := List.mem_map.1 hway
        obtain ⟨⟨k, rest⟩, -, hrest⟩ := List.mem_map.1 hother
        rw [← hpath, ← hrest]
        exact .statement (Nat.succ_pos k)
    · intro way id hway
      rw [waysFrom_cons] at hway
      obtain ⟨path, hpath, heq⟩ | ⟨other, hother, heq⟩ := hway
      · rw [← heq]
        exact List.mem_append_left _ (List.mem_map_of_mem (hpaths.complete path id hpath))
      · rw [← heq]
        exact List.mem_append_right _ (List.mem_map_of_mem (hways.complete other id hother))

end Enumerations

/-- **The paths below an expression.** The empty one comes first, then those through the parts. -/
theorem exists_enumerates_pathsTo (hacyclic : doc.Acyclic) (root : ExprId) :
    ∃ paths, Enumerates (· < ·) (fun path id => path ∈ doc.pathsTo id root) paths
      (doc.preorder root) := by
  induction root using induction_of_acyclic hacyclic with
  | step root ih =>
    have hparts : ∀ part ∈ doc.parts root, ∀ start, some part = some start → ∃ paths,
        Enumerates (· < ·) (fun path id => path ∈ doc.pathsTo id start) paths
          (doc.preorder start) := by
      intro part hpart start heq
      cases heq
      exact ih part (child_iff_mem_parts.2 hpart)
    obtain ⟨ways, hways⟩ := exists_enumerates_waysFrom hparts
    refine ⟨[] :: ways.map fun way => way.1 :: way.2, ?_, ?_, ?_⟩
    · rw [preorder_eq hacyclic]
      apply List.Forall₂.cons
      · show doc.follow root [] = some root
        rfl
      · rw [List.forall₂_map_left_iff]
        have hflat : ((doc.parts root).flatMap fun part => (some part).toList.flatMap doc.preorder) =
            (doc.parts root).flatMap doc.preorder := by simp
        rw [← hflat]
        apply hways.forall₂.imp
        intro way id hway
        rw [pathsTo_eq]
        exact Or.inr ⟨way, hway, rfl⟩
    · rw [List.pairwise_cons, List.pairwise_map]
      refine ⟨?_, hways.sorted.imp earlier_iff_lt.1⟩
      intro path hpath
      obtain ⟨way, -, heq⟩ := List.mem_map.1 hpath
      rw [← heq]
      exact List.nil_lt_cons _ _
    · intro path id hpath
      rw [pathsTo_eq] at hpath
      obtain ⟨hnil, -⟩ | ⟨way, hway, heq⟩ := hpath
      · rw [hnil]
        exact List.mem_cons_self
      · rw [← heq]
        exact List.mem_cons_of_mem _ (List.mem_map_of_mem (hways.complete way id hway))

/-- **The ways of a document.** -/
theorem exists_enumerates_ways (hacyclic : doc.Acyclic) :
    ∃ ways, Enumerates Earlier (fun way id => way ∈ doc.ways id) ways doc.visitOrder := by
  have hways : ∀ id, doc.ways id = doc.waysFrom id doc.root? doc.statements.toList := by
    intro id
    simp [ways, waysFrom, pathsTo]
  simp only [hways]
  exact exists_enumerates_waysFrom fun _ _ root _ => exists_enumerates_pathsTo hacyclic root

/-- The order of a list with all ways is that of the ways. -/
theorem Enumerates.lt_iff_earlier {leads : ℕ × List ℕ → ExprId → Prop} {ways : List (ℕ × List ℕ)}
    {ids : List ExprId} (h : Enumerates Earlier leads ways ids) {i j : ℕ} {way other : ℕ × List ℕ}
    (hi : ways[i]? = some way) (hj : ways[j]? = some other) : i < j ↔ Earlier way other := by
  have hsorted := List.pairwise_iff_getElem.1 h.sorted
  obtain ⟨hilt, hway⟩ := List.getElem?_eq_some_iff.1 hi
  obtain ⟨hjlt, hother⟩ := List.getElem?_eq_some_iff.1 hj
  constructor
  · intro hlt
    rw [← hway, ← hother]
    exact hsorted i j hilt hjlt hlt
  · intro hearlier
    by_contra hnot
    obtain heq | hlt : i = j ∨ j < i := by omega
    · subst heq
      rw [← hway, ← hother] at hearlier
      exact lt_irrefl _ (earlier_iff_lt.1 hearlier)
    · have hback := hsorted j i hjlt hilt hlt
      rw [hway, hother] at hback
      exact lt_asymm (earlier_iff_lt.1 hearlier) (earlier_iff_lt.1 hback)

/-! ### The walk -/

/-- Notes the expression that a walk comes by. -/
def noteExpr (ids : Array ExprId) : Visit → Except Fault (Array ExprId)
  | .expr id _ => .ok (ids.push id)
  | .definition .. | .evaluation .. => .ok ids

theorem foldlM_noteExpr {list : List ExprId} (h : ∀ id ∈ list, id.index < doc.exprs.size)
    (ids : Array ExprId) :
    list.foldlM (doc.visitExpr noteExpr) ids = .ok (ids ++ list.toArray) := by
  induction list generalizing ids with
  | nil =>
    rw [Array.append_empty]
    rfl
  | cons id list ih =>
    have hlt : id.index < doc.exprs.size := h id List.mem_cons_self
    have hget : doc.exprs[id.index]? = some doc.exprs[id.index] := Array.getElem?_eq_getElem hlt
    rw [List.foldlM_cons, visitExpr, expr_eq_ok.2 hget]
    show list.foldlM (doc.visitExpr noteExpr) (ids.push id) = _
    rw [ih fun x hx => h x (List.mem_cons_of_mem id hx)]
    simp

theorem walk_noteExpr (hw : doc.Walkable) :
    doc.walk noteExpr #[] = .ok doc.visitOrder.toArray := by
  rw [walk_eq_foldlM hw.acyclic hw.hasStatement (fun _ _ _ => rfl) (fun _ _ _ => rfl),
    foldlM_noteExpr, Array.empty_append]
  intro id hid
  exact hw.visited_lt ((mem_visitOrder hw.acyclic).1 hid)

/-- The expression at a stop. -/
def exprAt? : Visit → Option ExprId
  | .expr id _ => some id
  | .definition .. | .evaluation .. => none

theorem foldlM_noteExpr_stops (stops : List Visit) (ids : Array ExprId) :
    stops.foldlM noteExpr ids = .ok (ids ++ (stops.filterMap exprAt?).toArray) := by
  induction stops generalizing ids with
  | nil =>
    rw [List.filterMap_nil, Array.append_empty]
    rfl
  | cons stop stops ih =>
    rw [List.foldlM_cons]
    cases stop with
    | expr id expr =>
      show stops.foldlM noteExpr (ids.push id) = _
      rw [ih]
      simp [exprAt?]
    | definition number definition => exact ih ids
    | evaluation number evaluation => exact ih ids

theorem filter_node_stops (stops : List Visit) :
    (stops.map Visit.node).filter (·.kind = .expr) =
      (stops.filterMap exprAt?).map NodeId.node := by
  induction stops with
  | nil => rfl
  | cons stop stops ih =>
    cases stop with
    | expr id expr => simp [exprAt?, Visit.node, NodeId.node, ih]
    | definition number definition => exact ih
    | evaluation number evaluation => exact ih

/-- Of the nodes that a walk comes by, the expressions are those of `visitOrder`. -/
theorem filter_visits (hw : doc.Walkable) :
    ∃ nodes, doc.visits = .ok nodes ∧
      nodes.toList.filter (·.kind = .expr) = doc.visitOrder.map NodeId.node := by
  have hnoted : Except.ok doc.visitOrder.toArray = doc.stops.foldlM noteExpr #[] := by
    rw [← walk_noteExpr hw, walk_eq_foldlM_stops hw]
  rw [foldlM_noteExpr_stops, Array.empty_append] at hnoted
  have horder : doc.visitOrder = doc.stops.filterMap exprAt? :=
    congrArg Array.toList (Except.ok.inj hnoted)
  refine ⟨_, visits_eq hw, ?_⟩
  rw [horder]
  exact filter_node_stops doc.stops

/-- **A walk takes every way exactly once, in order.** In a well-formed document let `ids` be the
expressions that a walk comes by, which are also those among the nodes of the walk.

* An expression is among them as often as there are ways to it, from a statement and on through
  parts; so it is there exactly if some statement leads to it.
* There is a list of all ways, such that the walk takes them one after the other. It takes a way
  before another one exactly if `Earlier` says so: an earlier statement comes first, a node before
  all that is below it, and all that is below a part before all that is below a later part. -/
theorem walk_takes_ways (h : doc.WellFormed) :
    ∃ ids : List ExprId, doc.walk noteExpr #[] = .ok ids.toArray ∧
      (∃ nodes, doc.visits = .ok nodes ∧
        nodes.toList.filter (·.kind = .expr) = ids.map NodeId.node) ∧
      (∀ id, (ids.count id : ℕ∞) = (doc.ways id).encard) ∧
      (∀ id, id ∈ ids ↔ doc.Visited id) ∧
      ∃ ways : List (ℕ × List ℕ), List.Forall₂ (fun way id => way ∈ doc.ways id) ways ids ∧
        (∀ way id, way ∈ doc.ways id → way ∈ ways) ∧
        ∀ (i j : ℕ) (way other : ℕ × List ℕ), ways[i]? = some way → ways[j]? = some other →
          (i < j ↔ Earlier way other) := by
  have hw := h.walkable
  refine ⟨doc.visitOrder, walk_noteExpr hw, filter_visits hw, count_visitOrder h.acyclic,
    fun id => mem_visitOrder h.acyclic, ?_⟩
  obtain ⟨ways, hways⟩ := exists_enumerates_ways h.acyclic
  refine ⟨ways, hways.forall₂, hways.complete, ?_⟩
  intro i j way other hi hj
  exact hways.lt_iff_earlier hi hj

/-- There are `a = 1 + 1` with one literal for both operands, the evaluation of `f (a, 1)` with the
same literal again, and the definition of a variable as `a`. -/
def sharedOperand : Document where
  exprs := #[.number ⟨0x3ff0000000000000⟩, .binary .add ⟨0⟩ ⟨0⟩, .call none [⟨1⟩, ⟨0⟩]]
  definitions := #[{ name := ⟨1⟩, params := [], body := ⟨1⟩ }]
  evaluations := #[{ expr := ⟨2⟩, source := none }]
  statements := #[.evaluation ⟨0⟩, .definition ⟨0⟩]

/-- There are five ways to the literal. In the first statement, the one through the right operand of `a`
comes before the one through the second argument, which comes before all of the second statement. -/
theorem sharedOperand_ways :
    sharedOperand.WellFormed ∧
      sharedOperand.walk noteExpr #[] = .ok #[⟨2⟩, ⟨1⟩, ⟨0⟩, ⟨0⟩, ⟨0⟩, ⟨1⟩, ⟨0⟩, ⟨0⟩] ∧
      (sharedOperand.ways ⟨0⟩).encard = 5 ∧ sharedOperand.Visited ⟨0⟩ ∧
      (0, [0, 1]) ∈ sharedOperand.ways ⟨0⟩ ∧ Earlier (0, [0, 1]) (0, [1]) ∧
      Earlier (0, [1]) (1, [0]) := by
  have hw : sharedOperand.WellFormed :=
    wellFormed_of_earlier (by decide) (by decide) (by decide) (by decide)
  have hwalk : sharedOperand.walk noteExpr #[] =
      .ok #[⟨2⟩, ⟨1⟩, ⟨0⟩, ⟨0⟩, ⟨0⟩, ⟨1⟩, ⟨0⟩, ⟨0⟩] := by
    rfl
  obtain ⟨ids, hids, -, hcount, hvisited, -⟩ := walk_takes_ways hw
  rw [hwalk] at hids
  have heq : [⟨2⟩, ⟨1⟩, ⟨0⟩, ⟨0⟩, ⟨0⟩, ⟨1⟩, ⟨0⟩, ⟨0⟩] = ids :=
    congrArg Array.toList (Except.ok.inj hids)
  subst heq
  refine ⟨hw, hwalk, (hcount ⟨0⟩).symm, (hvisited ⟨0⟩).1 (by decide), ?_, ?_, ?_⟩
  · exact ⟨.evaluation ⟨0⟩, ⟨2⟩, rfl, rfl, rfl⟩
  · show Earlier (0, [] ++ 0 :: [1]) (0, [] ++ 1 :: [])
    exact .part Nat.zero_lt_one
  · exact .statement Nat.zero_lt_one

end Reckon.Document
