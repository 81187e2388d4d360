import Reckon.Proofs.FoldMemory
import Reckon.Proofs.Validation

/-!
# What does not fold

An expression fails to fold for a reason that stands somewhere in its operator tree, and any such
reason is enough, however deep it stands. For an expression that is made of literals and operators
only one reason is left, and it is the one that validation reports.

* `Document.Blocks`: what never folds, whatever stands around it.
* `OperatorTree.eq_none`: an operand that does not fold keeps everything above it from folding.
* `Folds.eq_none_iff`: the reasons are all there are.
* `exists_zeroDivisor_mem_checks_iff`: validation reports a zero divisor at each division by a fold
  of zero that a walk comes by, and nowhere else.
* `fold_eq_none_iff_blocks`: folding and the reports of validation.
-/

namespace Reckon.Document

variable {doc : Document} {id node root : ExprId} {value : Value} {changes : Char → Bool}

/-! ### Reasons -/

/-- A call, an unreadable expression, or a division whose right operand folds to a zero of either
sign. -/
def Blocks (doc : Document) (id : ExprId) : Prop :=
  (∃ target args, doc.exprs[id.index]? = some (.call target args)) ∨
    doc.exprs[id.index]? = some .error ∨
    ∃ op left right z, doc.exprs[id.index]? = some (.binary op left right) ∧
      op.isDivision = true ∧ doc.fold right = .ok (some z) ∧ z.isZero = true

theorem blocks_iff (hacyclic : doc.Acyclic) :
    doc.Blocks id ↔
      (∃ target args, doc.exprs[id.index]? = some (.call target args)) ∨
        doc.exprs[id.index]? = some .error ∨ doc.DividesByZero id := by
  simp only [Blocks, DividesByZero, fold_eq_ok hacyclic]

/-- An operator folds by the folds of its operands. -/
theorem Folds.exists_operands {op : Operator} {left right : ExprId} (hf : doc.Folds id value)
    (h : doc.exprs[id.index]? = some (.binary op left right)) :
    ∃ x y, doc.Folds left x ∧ doc.Folds right y ∧ value = Value.fold op x y := by
  cases hf with
  | binary h' hleft hright =>
    rw [h] at h'
    cases h'
    exact ⟨_, _, hleft, hright, rfl⟩
  | number h' => simp [h] at h'
  | call h' => simp [h] at h'
  | error h' => simp [h] at h'

/-- What blocks does not fold. -/
theorem Folds.eq_none_of_blocks (hf : doc.Folds id value) (hacyclic : doc.Acyclic)
    (h : doc.Blocks id) : value = none := by
  rcases (blocks_iff hacyclic).1 h with ⟨target, args, hcall⟩ | herror | hzero
  · exact hf.unique (.call hcall)
  · exact hf.unique (.error herror)
  · obtain ⟨op, left, right, z, hexpr, hop, hright, hz⟩ := hzero
    obtain ⟨x, y, -, hy, rfl⟩ := hf.exists_operands hexpr
    rw [hy.unique hright]
    exact Value.fold_eq_none.2 (Or.inr (Or.inr ⟨hop, by simpa using hz⟩))

/-- What does not fold is passed on to every operator above it. -/
theorem OperatorTree.eq_none (h : doc.OperatorTree id node) (hnode : doc.Folds node none)
    (hf : doc.Folds id value) : value = none := by
  induction h generalizing value with
  | root => exact hf.unique hnode
  | left h _ ih =>
    obtain ⟨x, y, hx, -, rfl⟩ := hf.exists_operands h
    exact Value.fold_eq_none.2 (Or.inl (ih hnode hx))
  | right h _ ih =>
    obtain ⟨x, y, -, hy, rfl⟩ := hf.exists_operands h
    exact Value.fold_eq_none.2 (Or.inr (Or.inl (ih hnode hy)))

/-- An expression does not fold exactly if something blocks in its operator tree. -/
theorem Folds.eq_none_iff (hf : doc.Folds id value) (h : doc.WellFormed)
    (hid : id.index < doc.exprs.size) :
    value = none ↔ ∃ node, doc.OperatorTree id node ∧ doc.Blocks node := by
  constructor
  · rintro rfl
    obtain ⟨node, hnode, hreason⟩ := hf.exists_reason
    exact ⟨node, hnode, (blocks_iff h.acyclic).2 hreason⟩
  · rintro ⟨node, hnode, hblocks⟩
    obtain ⟨found, hfound⟩ := h.exists_folds_of_lt (h.index_lt_of_within hid hnode.within)
    have hnone := hfound.eq_none_of_blocks h.acyclic hblocks
    exact hnode.eq_none (hnone ▸ hfound) hf

/-- In an operator tree of literals and operators only a division by zero blocks. -/
theorem Arithmetic.blocks_iff_dividesByZero (h : doc.Arithmetic root) (hacyclic : doc.Acyclic)
    (hnode : doc.OperatorTree root node) : doc.Blocks node ↔ doc.DividesByZero node := by
  rw [blocks_iff hacyclic]
  constructor
  · rintro (⟨target, args, hcall⟩ | herror | hzero)
    · rcases h node hnode with ⟨x, hx⟩ | ⟨op, left, right, hbinary⟩
      · simp [hcall] at hx
      · simp [hcall] at hbinary
    · rcases h node hnode with ⟨x, hx⟩ | ⟨op, left, right, hbinary⟩
      · simp [herror] at hx
      · simp [herror] at hbinary
    · exact hzero
  · exact fun hzero => Or.inr (Or.inr hzero)

/-! ### Reports -/

/-- Validation reports a zero divisor at an expression exactly if a walk comes by and the expression
divides by a fold of zero. -/
theorem exists_zeroDivisor_mem_checks_iff (hw : doc.Walkable) :
    (∃ diagnostic ∈ doc.checks changes, diagnostic.code = .zeroDivisor ∧ diagnostic.node = id.node) ↔
      doc.Visited id ∧ doc.DividesByZero id := by
  constructor
  · rintro ⟨diagnostic, hmem, hcode, hnode⟩
    obtain ⟨other, hother, hdiagnostic⟩ := exists_nodeDiagnostic?_of_mem_checks hmem
      (by simp [hcode]) (by simp [hcode])
    have heq : other = id :=
      NodeId.node_injective ((node_of_nodeDiagnostic? hdiagnostic).symm.trans hnode)
    subst heq
    exact ⟨(mem_visitOrder hw.acyclic).1 hother,
      (exists_zeroDivisor_iff hw.acyclic).1 ⟨diagnostic, hdiagnostic, hcode⟩⟩
  · rintro ⟨hvisited, hzero⟩
    obtain ⟨diagnostic, hdiagnostic, hcode⟩ := (exists_zeroDivisor_iff hw.acyclic).2 hzero
    refine ⟨diagnostic, List.mem_append_right _ ?_, hcode, node_of_nodeDiagnostic? hdiagnostic⟩
    exact List.mem_filterMap.2 ⟨id, (mem_visitOrder hw.acyclic).2 hvisited, hdiagnostic⟩

/-- **The exact domain of folding.** In a well-formed document, every expression has a fold or none.
It has none exactly if something in its operator tree is a call or cannot be read, or divides by
what folds to a zero of either sign. If the expression of a statement is made of literals and
operators, then it has no fold exactly if validation reports a zero divisor somewhere in its
operator tree. -/
theorem fold_eq_none_iff_blocks (h : doc.WellFormed) (changes : Char → Bool) :
    (∀ id : ExprId, id.index < doc.exprs.size → ∃ value, doc.fold id = .ok value ∧
      (value = none ↔ ∃ node, doc.OperatorTree id node ∧ doc.Blocks node)) ∧
    ∃ diagnostics, doc.validate changes = .ok diagnostics ∧
      ∀ statement ∈ doc.statements, ∀ root, doc.root? statement = some root → doc.Arithmetic root →
        (doc.fold root = .ok none ↔
          ∃ diagnostic ∈ diagnostics, diagnostic.code = .zeroDivisor ∧
            ∃ node, doc.OperatorTree root node ∧ diagnostic.node = node.node) := by
  refine ⟨?_, doc.checks changes, validate_of_walkable h.walkable changes, ?_⟩
  · intro id hid
    obtain ⟨value, hf⟩ := h.exists_folds_of_lt hid
    exact ⟨value, (fold_eq_ok h.acyclic).2 hf, hf.eq_none_iff h hid⟩
  · intro statement hmem root hroot harith
    have hvisited : doc.Visited root := ⟨statement, hmem, root, hroot, .refl doc root⟩
    have hid := h.walkable.visited_lt hvisited
    obtain ⟨value, hf⟩ := h.exists_folds_of_lt hid
    have hnone : doc.fold root = .ok none ↔ value = none := by
      rw [(fold_eq_ok h.acyclic).2 hf, Except.ok.injEq]
    rw [hnone, hf.eq_none_iff h hid]
    constructor
    · rintro ⟨node, hnode, hblocks⟩
      have hzero := (harith.blocks_iff_dividesByZero h.acyclic hnode).1 hblocks
      obtain ⟨diagnostic, hdiagnostic, hcode, hat⟩ :=
        (exists_zeroDivisor_mem_checks_iff h.walkable).2 ⟨hvisited.of_within hnode.within, hzero⟩
      exact ⟨diagnostic, hdiagnostic, hcode, node, hnode, hat⟩
    · rintro ⟨diagnostic, hdiagnostic, hcode, node, hnode, hat⟩
      have hzero := ((exists_zeroDivisor_mem_checks_iff h.walkable).1
        ⟨diagnostic, hdiagnostic, hcode, hat⟩).2
      exact ⟨node, hnode, (harith.blocks_iff_dividesByZero h.acyclic hnode).2 hzero⟩

/-- The evaluation of `1 / (1 / (1 % -0))`, beside one of `1 / (1 / 1)`. -/
def nestedDivisions : Document where
  exprs := #[.number ⟨0x3ff0000000000000⟩, .number ⟨0x8000000000000000⟩, .binary .mod ⟨0⟩ ⟨1⟩,
    .binary .div ⟨0⟩ ⟨2⟩, .binary .div ⟨0⟩ ⟨3⟩, .binary .div ⟨0⟩ ⟨0⟩, .binary .div ⟨0⟩ ⟨5⟩]
  evaluations := #[{ expr := ⟨4⟩, source := none }, { expr := ⟨6⟩, source := none }]
  statements := #[.evaluation ⟨0⟩, .evaluation ⟨1⟩]

/-- The innermost division keeps the first evaluation from folding, and it is the only one that is
reported. The other evaluation folds. -/
theorem nestedDivisions_blocks :
    nestedDivisions.WellFormed ∧ nestedDivisions.Arithmetic ⟨4⟩ ∧ nestedDivisions.Arithmetic ⟨6⟩ ∧
      (∃ node, nestedDivisions.OperatorTree ⟨4⟩ node ∧ nestedDivisions.Blocks node) ∧
      (¬ ∃ node, nestedDivisions.OperatorTree ⟨6⟩ node ∧ nestedDivisions.Blocks node) ∧
      nestedDivisions.validate Uppercase.changes = .ok [divisionDiagnostic ⟨2⟩ .mod] ∧
      ∃ node, nestedDivisions.OperatorTree ⟨4⟩ node ∧ (⟨2⟩ : ExprId).node = node.node := by
  have hw : nestedDivisions.WellFormed :=
    wellFormed_of_earlier (by decide) (by decide) (by decide) (by decide)
  have harith : ∀ id : ExprId, id.index < 7 → nestedDivisions.Arithmetic id := by
    intro id hid node hnode
    have hlt : node.index < 7 := hw.index_lt_of_within hid hnode.within
    have hindex : node.index = 0 ∨ node.index = 1 ∨ node.index = 2 ∨ node.index = 3 ∨
        node.index = 4 ∨ node.index = 5 ∨ node.index = 6 := by omega
    rcases hindex with h | h | h | h | h | h | h <;> simp [nestedDivisions, h]
  obtain ⟨hfolds, diagnostics, hdiagnostics, hreports⟩ :=
    fold_eq_none_iff_blocks hw Uppercase.changes
  have hfour : nestedDivisions.fold ⟨4⟩ = .ok none := by decide +kernel
  have hsix : nestedDivisions.fold ⟨6⟩ = .ok (some ⟨0x3ff0000000000000⟩) := by decide +kernel
  have hvalidate : nestedDivisions.validate Uppercase.changes =
      .ok [divisionDiagnostic ⟨2⟩ .mod] := by
    decide +kernel
  rw [hvalidate] at hdiagnostics
  cases hdiagnostics
  refine ⟨hw, harith ⟨4⟩ (by decide), harith ⟨6⟩ (by decide), ?_, ?_, hvalidate, ?_⟩
  · obtain ⟨value, hvalue, hblocks⟩ := hfolds ⟨4⟩ (by decide)
    rw [hfour] at hvalue
    cases hvalue
    exact hblocks.1 rfl
  · obtain ⟨value, hvalue, hblocks⟩ := hfolds ⟨6⟩ (by decide)
    rw [hsix] at hvalue
    cases hvalue
    exact fun hany => nomatch hblocks.2 hany
  · have hstatement : .evaluation ⟨0⟩ ∈ nestedDivisions.statements := by simp [nestedDivisions]
    obtain ⟨diagnostic, hmem, -, node, hnode, hat⟩ :=
      (hreports _ hstatement ⟨4⟩ rfl (harith ⟨4⟩ (by decide))).1 hfour
    cases List.mem_singleton.1 hmem
    exact ⟨node, hnode, hat⟩

end Reckon.Document
