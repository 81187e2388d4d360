import Mathlib.Data.Set.Card
import Reckon.Document.WellFormed

/-!
# The rank of an expression

Evaluation, folding and the walk all follow the parts of an expression down, and all of them carry a
bound for the nesting. This file shows that the bound `Document.height` is never met where no
expression contains itself.

* `Document.Within`: an expression itself, or one below it.
* `Document.rank`: the number of expressions of the table within an expression. It gets smaller from
  an expression to its parts (`rank_lt_of_child`) and stays below the height (`rank_lt_height`), so
  that an induction on the height can carry `rank id < height` along.
* `Document.Path`: the expressions passed on the way down to a part. A way that passes no expression
  twice leaves room for the rank of its end (`rank_add_length_lt_height`).
* `wellFormed_of_earlier`: a document in which parts come before the whole is well formed.
-/

namespace Reckon.Document

variable {doc : Document} {id whole part deep : ExprId}

/-- No expression contains itself. -/
def Acyclic (doc : Document) : Prop :=
  ∀ id : ExprId, ¬ doc.Contains id id

theorem Acyclic.of_exprs_eq {doc' : Document} (h : doc.Acyclic) (hexprs : doc'.exprs = doc.exprs) :
    doc'.Acyclic := by
  have hchild : ∀ {whole part : ExprId}, doc'.Child whole part → doc.Child whole part := by
    intro whole part hc
    rwa [Child, hexprs] at hc
  have hcontains : ∀ {whole part : ExprId}, doc'.Contains whole part → doc.Contains whole part := by
    intro whole part hc
    induction hc with
    | child hc => exact .child (hchild hc)
    | deeper hc _ ih => exact .deeper (hchild hc) ih
  exact fun id hself => h id (hcontains hself)

/-! ### Expressions within an expression -/

/-- `part` is `whole` itself or stands below it. -/
def Within (doc : Document) (whole part : ExprId) : Prop :=
  part = whole ∨ doc.Contains whole part

theorem Within.refl (doc : Document) (id : ExprId) : doc.Within id id :=
  Or.inl rfl

theorem Within.contains (h : doc.Child whole part) (hw : doc.Within part deep) :
    doc.Contains whole deep := by
  rcases hw with rfl | hw
  · exact .child h
  · exact .deeper h hw

theorem Within.of_child (h : doc.Child whole part) (hw : doc.Within part deep) :
    doc.Within whole deep :=
  Or.inr (hw.contains h)

/-- A way down starts with a part. -/
theorem Contains.exists_child (h : doc.Contains whole deep) :
    ∃ part, doc.Child whole part ∧ doc.Within part deep := by
  cases h with
  | child hpart => exact ⟨deep, hpart, Within.refl doc deep⟩
  | deeper hpart hrest => exact ⟨_, hpart, Or.inr hrest⟩

theorem Within.trans {a b c : ExprId} (hab : doc.Within a b) (hbc : doc.Within b c) :
    doc.Within a c := by
  rcases hab with rfl | hab
  · exact hbc
  · rcases hbc with rfl | hbc
    · exact Or.inr hab
    · exact Or.inr (hab.trans hbc)

theorem Child.index_lt (h : doc.Child whole part) : whole.index < doc.exprs.size := by
  obtain ⟨expr, hexpr, -⟩ := h
  exact (Array.getElem?_eq_some_iff.1 hexpr).1

theorem child_left {left right : ExprId} {op : Operator}
    (h : doc.exprs[id.index]? = some (.binary op left right)) : doc.Child id left :=
  ⟨_, h, by simp [Expr.children]⟩

theorem child_right {left right : ExprId} {op : Operator}
    (h : doc.exprs[id.index]? = some (.binary op left right)) : doc.Child id right :=
  ⟨_, h, by simp [Expr.children]⟩

/-! ### The rank -/

/-- The expressions of the table within an expression. -/
def region (doc : Document) (id : ExprId) : Set ExprId :=
  {part | part.index < doc.exprs.size ∧ doc.Within id part}

/-- The number of expressions of the table within an expression. -/
noncomputable def rank (doc : Document) (id : ExprId) : ℕ :=
  (doc.region id).ncard

theorem setOf_index_lt (n : ℕ) : {id : ExprId | id.index < n} = NodeId.mk '' ↑(Finset.range n) := by
  ext ⟨i⟩
  simp

theorem finite_setOf_index_lt (n : ℕ) : {id : ExprId | id.index < n}.Finite := by
  rw [setOf_index_lt]
  exact (Finset.finite_toSet _).image _

theorem ncard_setOf_index_lt (n : ℕ) : {id : ExprId | id.index < n}.ncard = n := by
  have hinj : Function.Injective (NodeId.mk : ℕ → ExprId) :=
    fun _ _ h => congrArg NodeId.index h
  rw [setOf_index_lt, Set.ncard_image_of_injective _ hinj, Set.ncard_coe_finset, Finset.card_range]

theorem region_subset (doc : Document) (id : ExprId) :
    doc.region id ⊆ {part | part.index < doc.exprs.size} :=
  fun _ h => h.1

theorem finite_region (doc : Document) (id : ExprId) : (doc.region id).Finite :=
  (finite_setOf_index_lt _).subset (doc.region_subset id)

theorem rank_le_size (doc : Document) (id : ExprId) : doc.rank id ≤ doc.exprs.size := by
  have h := Set.ncard_le_ncard (doc.region_subset id) (finite_setOf_index_lt _)
  rwa [ncard_setOf_index_lt] at h

theorem rank_lt_height (doc : Document) (id : ExprId) : doc.rank id < doc.height :=
  Nat.lt_succ_of_le (doc.rank_le_size id)

/-- The region of a part misses the whole, unless the whole contains itself. -/
theorem rank_lt_of_child (h : doc.Child whole part) (hacyclic : ¬ doc.Contains whole whole) :
    doc.rank part < doc.rank whole := by
  apply Set.ncard_lt_ncard _ (doc.finite_region whole)
  refine ⟨fun deep hd => ⟨hd.1, hd.2.of_child h⟩, fun hsub => ?_⟩
  have hmem : whole ∈ doc.region part := hsub ⟨h.index_lt, Within.refl doc whole⟩
  exact hacyclic (hmem.2.contains h)

/-- Induction from the parts of an expression to the whole. -/
theorem induction_of_acyclic (hacyclic : doc.Acyclic) {motive : ExprId → Prop}
    (step : ∀ id, (∀ part, doc.Child id part → motive part) → motive id) (id : ExprId) :
    motive id := by
  induction hn : doc.rank id using Nat.strong_induction_on generalizing id with
  | _ n ih =>
    subst hn
    exact step id fun part hpart => ih _ (rank_lt_of_child hpart (hacyclic id)) part rfl

/-! ### Ways down -/

/-- `above` lists the expressions passed on a way from the first index down to the second, the start
included and the end left out. -/
inductive Path (doc : Document) : ExprId → (above : List ExprId) → ExprId → Prop
  | here {id : ExprId} : doc.Path id [] id
  | down {whole part id : ExprId} {above : List ExprId} (h : doc.Child whole part)
      (rest : doc.Path part above id) : doc.Path whole (whole :: above) id

theorem Path.within {above : List ExprId} (h : doc.Path whole above part) :
    doc.Within whole part := by
  induction h with
  | here => exact Within.refl doc _
  | down hc _ ih => exact ih.of_child hc

theorem Path.contains_of_mem {above : List ExprId} (h : doc.Path whole above part) :
    ∀ {x : ExprId}, x ∈ above → x.index < doc.exprs.size ∧ doc.Contains x part := by
  induction h with
  | here =>
    intro x hx
    simp at hx
  | down hc rest ih =>
    intro x hx
    rcases List.mem_cons.1 hx with rfl | hx
    · exact ⟨hc.index_lt, rest.within.contains hc⟩
    · exact ih hx

/-- Below a way that passes no expression twice there is room for the rank of its end: the
expressions passed and those within the end are different entries of the table. -/
theorem rank_add_length_lt_height {above : List ExprId} (hpath : doc.Path whole above id)
    (hnodup : above.Nodup) (hacyclic : ¬ doc.Contains id id) :
    doc.rank id + above.length < doc.height := by
  have hdisjoint : Disjoint (doc.region id) ↑above.toFinset := by
    rw [Set.disjoint_left]
    intro x hx habove
    have hxid := (hpath.contains_of_mem (List.mem_toFinset.1 (Finset.mem_coe.1 habove))).2
    rcases hx.2 with rfl | hidx
    · exact hacyclic hxid
    · exact hacyclic (hidx.trans hxid)
  have hsub : doc.region id ∪ ↑above.toFinset ⊆ {part : ExprId | part.index < doc.exprs.size} := by
    rintro x (hx | hx)
    · exact hx.1
    · exact (hpath.contains_of_mem (List.mem_toFinset.1 (Finset.mem_coe.1 hx))).1
  have hcard := Set.ncard_le_ncard hsub (finite_setOf_index_lt _)
  rw [Set.ncard_union_eq hdisjoint (doc.finite_region id) (Finset.finite_toSet _),
    Set.ncard_coe_finset, List.toFinset_card_of_nodup hnodup, ncard_setOf_index_lt] at hcard
  exact Nat.lt_succ_of_le hcard

/-! ### Documents in order -/

/-- A document is well formed if the parts of each expression come before it, and roots and
statements are in their tables. -/
theorem wellFormed_of_earlier
    (hparts : ∀ i (h : i < doc.exprs.size), ∀ part ∈ doc.exprs[i].children, part.index < i)
    (hbody : ∀ i (h : i < doc.definitions.size), doc.definitions[i].body.index < doc.exprs.size)
    (hexpr : ∀ i (h : i < doc.evaluations.size), doc.evaluations[i].expr.index < doc.exprs.size)
    (hstatement : ∀ statement ∈ doc.statements, doc.HasStatement statement) :
    doc.WellFormed := by
  have hchild : ∀ whole part : ExprId, doc.Child whole part → part.index < whole.index := by
    rintro whole part ⟨expr, hexpr, hpart⟩
    obtain ⟨hlt, rfl⟩ := Array.getElem?_eq_some_iff.1 hexpr
    exact hparts whole.index hlt part hpart
  refine ⟨fun h => (hchild _ _ h).trans h.index_lt, ?_, not_contains_self hchild, hstatement⟩
  rintro id (⟨definition, hmem, rfl⟩ | ⟨evaluation, hmem, rfl⟩)
  · obtain ⟨i, hi, rfl⟩ := Array.mem_iff_getElem.1 hmem
    exact hbody i hi
  · obtain ⟨i, hi, rfl⟩ := Array.mem_iff_getElem.1 hmem
    exact hexpr i hi

end Reckon.Document
