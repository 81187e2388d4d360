import Reckon.Eval.Pass
import Reckon.Fold
import Reckon.Proofs.Rank

/-!
# Folding agrees with evaluation

A folder remembers what it has folded and refuses a division by zero; evaluation knows names, calls
and missing operands. This file joins the two through a relation that has neither a memory nor a
bound.

* `Document.Folds`: the fold of an expression, stated by its parts.
* `Document.OperatorTree`: the expressions reached through operands. What does not fold has its
  reason there (`Folds.exists_reason`).
* `Document.CacheSound`: every remembered fold is a fold. A folder that starts from such a memory
  keeps it, and answers folds only (`Folds.of_foldWith`).
* `Document.exists_foldWith`: where no expression contains itself, the folder does answer.
* `evalNode_of_folds`: an expression that folds to a number is evaluated to this number, as an action
  that leaves the stack alone.
* `Document.Constant`, `evaluation_eq_fold`: what this means for one expression, for statements and
  for documents.
-/

namespace Reckon.Document

variable {doc : Document} {id : ExprId} {cache rest : FoldCache} {value : Value} {height : ℕ}

/-! ### Folds without a memory -/

/-- The fold of an expression, by those of its operands. -/
inductive Folds (doc : Document) : ExprId → Value → Prop
  | number {id : ExprId} {x : Binary64} (h : doc.exprs[id.index]? = some (.number x)) :
      doc.Folds id (some x)
  /-- An operator folds by the folds of both operands. -/
  | binary {id left right : ExprId} {op : Operator} {x y : Value}
      (h : doc.exprs[id.index]? = some (.binary op left right))
      (hleft : doc.Folds left x) (hright : doc.Folds right y) :
      doc.Folds id (Value.fold op x y)
  | call {id : ExprId} {target : Option CallTarget} {args : List ExprId}
      (h : doc.exprs[id.index]? = some (.call target args)) : doc.Folds id none
  | error {id : ExprId} (h : doc.exprs[id.index]? = some .error) : doc.Folds id none

theorem Folds.unique {x y : Value} (hx : doc.Folds id x) (hy : doc.Folds id y) : x = y := by
  induction hx generalizing y with
  | number h => cases hy <;> simp_all
  | binary h _ _ ihl ihr =>
    cases hy with
    | binary h' hl hr =>
      rw [h] at h'
      cases h'
      rw [ihl hl, ihr hr]
    | number h' => simp [h] at h'
    | call h' => simp [h] at h'
    | error h' => simp [h] at h'
  | call h => cases hy <;> simp_all
  | error h => cases hy <;> simp_all

/-- What folds to a number is a literal, or an operator between expressions that do. -/
theorem Folds.inv_some {x : Binary64} (h : doc.Folds id (some x)) :
    doc.exprs[id.index]? = some (.number x) ∨
      ∃ op left right a b, doc.exprs[id.index]? = some (.binary op left right) ∧
        doc.Folds left (some a) ∧ doc.Folds right (some b) ∧
        Value.fold op (some a) (some b) = some x := by
  generalize hvalue : (some x : Value) = value at h
  cases h with
  | number h =>
    cases hvalue
    exact Or.inl h
  | binary h hleft hright =>
    obtain ⟨a, b, rfl, rfl, -, -⟩ := Value.fold_eq_some.1 hvalue.symm
    exact Or.inr ⟨_, _, _, a, b, h, hleft, hright, rfl⟩
  | call h => cases hvalue
  | error h => cases hvalue

/-- An expression that folds to a number does not contain itself: literals and operators are all that
stands below it. -/
theorem Folds.not_contains {x : Binary64} (h : doc.Folds id (some x)) : ¬ doc.Contains id id := by
  generalize hv : (some x : Value) = value at h
  induction h generalizing x with
  | @number id x' h =>
    intro hc
    obtain ⟨part, ⟨expr, hexpr, hmem⟩, -⟩ := hc.exists_child
    rw [h] at hexpr
    cases hexpr
    simp [Expr.children] at hmem
  | @binary id left right op a b h _ _ ihl ihr =>
    obtain ⟨a', b', rfl, rfl, -, -⟩ := Value.fold_eq_some.1 hv.symm
    intro hc
    -- a way from `id` back to `id` starts with an operand, which then contains itself too
    have hback : ∀ part, doc.Child id part → doc.Within part id → doc.Contains part part := by
      intro part hpart hw
      rcases hw with rfl | hw
      · exact hc
      · exact hw.trans (.child hpart)
    obtain ⟨part, hpart, hw⟩ := hc.exists_child
    have hself := hback part hpart hw
    obtain ⟨expr, hexpr, hmem⟩ := hpart
    rw [h] at hexpr
    cases hexpr
    simp only [Expr.children, List.mem_cons, List.not_mem_nil, or_false] at hmem
    rcases hmem with rfl | rfl
    · exact ihl rfl hself
    · exact ihr rfl hself
  | call h => cases hv
  | error h => cases hv

/-! ### Operator trees -/

/-- `node` is reached from `root` through operands alone. -/
inductive OperatorTree (doc : Document) : (root node : ExprId) → Prop
  | root {id : ExprId} : doc.OperatorTree id id
  | left {id left right node : ExprId} {op : Operator}
      (h : doc.exprs[id.index]? = some (.binary op left right))
      (rest : doc.OperatorTree left node) : doc.OperatorTree id node
  | right {id left right node : ExprId} {op : Operator}
      (h : doc.exprs[id.index]? = some (.binary op left right))
      (rest : doc.OperatorTree right node) : doc.OperatorTree id node

theorem OperatorTree.within {node : ExprId} (h : doc.OperatorTree id node) :
    doc.Within id node := by
  induction h with
  | root => exact Within.refl doc _
  | left h _ ih => exact ih.of_child (child_left h)
  | right h _ ih => exact ih.of_child (child_right h)

theorem OperatorTree.trans {a b c : ExprId} (hab : doc.OperatorTree a b)
    (hbc : doc.OperatorTree b c) : doc.OperatorTree a c := by
  induction hab with
  | root => exact hbc
  | left h _ ih => exact .left h (ih hbc)
  | right h _ ih => exact .right h (ih hbc)

/-- The tree of an operator is the operator with the trees of both operands. -/
theorem operatorTree_of_binary {op : Operator} {left right node : ExprId}
    (h : doc.exprs[id.index]? = some (.binary op left right)) :
    doc.OperatorTree id node ↔
      node = id ∨ doc.OperatorTree left node ∨ doc.OperatorTree right node := by
  constructor
  · intro htree
    cases htree with
    | root => exact Or.inl rfl
    | left h' rest =>
      rw [h] at h'
      cases h'
      exact Or.inr (Or.inl rest)
    | right h' rest =>
      rw [h] at h'
      cases h'
      exact Or.inr (Or.inr rest)
  · rintro (rfl | hleft | hright)
    · exact .root
    · exact .left h hleft
    · exact .right h hright

/-- Nothing else has operands. The arguments of a call are not among them. -/
theorem operatorTree_of_leaf {node : ExprId}
    (h : ∀ op left right, doc.exprs[id.index]? ≠ some (.binary op left right)) :
    doc.OperatorTree id node ↔ node = id := by
  constructor
  · intro htree
    cases htree with
    | root => rfl
    | left h' _ => exact absurd h' (h _ _ _)
    | right h' _ => exact absurd h' (h _ _ _)
  · rintro rfl
    exact .root

/-- An operator that divides by a fold of zero. -/
def DividesByZero (doc : Document) (id : ExprId) : Prop :=
  ∃ op left right z, doc.exprs[id.index]? = some (.binary op left right) ∧
    op.isDivision = true ∧ doc.Folds right (some z) ∧ z.isZero = true

/-- What does not fold has a reason in its operator tree: a call, an unreadable expression, or a
division by zero. -/
theorem Folds.exists_reason (h : doc.Folds id none) :
    ∃ node, doc.OperatorTree id node ∧
      ((∃ target args, doc.exprs[node.index]? = some (.call target args)) ∨
        doc.exprs[node.index]? = some .error ∨ doc.DividesByZero node) := by
  generalize hvalue : (none : Value) = value at h
  induction h with
  | number h => cases hvalue
  | @binary id left right op x y h hleft hright ihl ihr =>
    rcases Value.fold_eq_none.1 hvalue.symm with rfl | rfl | ⟨hop, hzero⟩
    · obtain ⟨node, hnode, hreason⟩ := ihl rfl
      exact ⟨node, .left h hnode, hreason⟩
    · obtain ⟨node, hnode, hreason⟩ := ihr rfl
      exact ⟨node, .right h hnode, hreason⟩
    · obtain ⟨z, rfl, hz⟩ := (Option.any_eq_true _ _).1 hzero
      exact ⟨id, .root, Or.inr (Or.inr ⟨op, left, right, z, h, hop, hright, hz⟩)⟩
  | call h => exact ⟨_, .root, Or.inl ⟨_, _, h⟩⟩
  | error h => exact ⟨_, .root, Or.inr (Or.inl h)⟩

/-- Everything in the operator tree is a literal or an operator. -/
def Arithmetic (doc : Document) (id : ExprId) : Prop :=
  ∀ node, doc.OperatorTree id node →
    (∃ x, doc.exprs[node.index]? = some (.number x)) ∨
      ∃ op left right, doc.exprs[node.index]? = some (.binary op left right)

/-- Where no expression contains itself, every expression whose operator tree is in the table has a
fold, known or not. -/
theorem exists_folds (hacyclic : doc.Acyclic)
    (hlt : ∀ node, doc.OperatorTree id node → node.index < doc.exprs.size) :
    ∃ value, doc.Folds id value := by
  induction id using induction_of_acyclic hacyclic with
  | step id ih =>
    obtain ⟨expr, hexpr⟩ : ∃ expr, doc.exprs[id.index]? = some expr :=
      ⟨_, Array.getElem?_eq_getElem (hlt id .root)⟩
    cases expr with
    | number x => exact ⟨_, .number hexpr⟩
    | binary op left right =>
      obtain ⟨x, hx⟩ := ih left (child_left hexpr) fun node h => hlt node (.left hexpr h)
      obtain ⟨y, hy⟩ := ih right (child_right hexpr) fun node h => hlt node (.right hexpr h)
      exact ⟨_, .binary hexpr hx hy⟩
    | call target args => exact ⟨_, .call hexpr⟩
    | error => exact ⟨_, .error hexpr⟩

/-! ### The memory of a folder -/

/-- What is remembered are folds. -/
def CacheSound (doc : Document) (cache : FoldCache) : Prop :=
  ∀ (id : ExprId) (value : Value), cache[id]? = some value → doc.Folds id value

theorem cacheSound_empty (doc : Document) : doc.CacheSound ∅ := by
  intro id value h
  simp at h

theorem CacheSound.insert (hc : doc.CacheSound cache) (h : doc.Folds id value) :
    doc.CacheSound (cache.insert id value) := by
  intro other found hother
  rw [Std.ExtTreeMap.getElem?_insert] at hother
  split at hother
  · rename_i hcompare
    have heq : id = other := Std.LawfulEqCmp.eq_of_compare hcompare
    cases hother
    exact heq ▸ h
  · exact hc other found hother

/-- **A folder answers folds.** Whatever it remembers and however far it gets, its answer is the fold
of the expression, and all that it remembers afterwards are folds. -/
theorem Folds.of_foldWith (hc : doc.CacheSound cache)
    (h : (doc.foldWith height id).run cache = .ok (value, rest)) :
    doc.Folds id value ∧ doc.CacheSound rest := by
  induction height generalizing id cache value rest with
  | zero => cases h
  | succ height ih =>
    cases hfound : cache[id]? with
    | some found =>
      rw [foldWith_of_remembered hfound] at h
      cases h
      exact ⟨hc id value hfound, hc⟩
    | none =>
      rw [foldWith_of_new hfound] at h
      obtain ⟨expr, hexpr, h⟩ := bind_eq_ok.1 h
      rw [expr_eq_ok] at hexpr
      cases expr with
      | number x =>
        cases h
        exact ⟨.number hexpr, hc.insert (.number hexpr)⟩
      | binary op left right =>
        obtain ⟨⟨x, afterLeft⟩, hleft, h⟩ := bind_eq_ok.1 h
        obtain ⟨⟨y, afterRight⟩, hright, h⟩ := bind_eq_ok.1 h
        cases h
        obtain ⟨hx, hcx⟩ := ih hc hleft
        obtain ⟨hy, hcy⟩ := ih hcx hright
        exact ⟨.binary hexpr hx hy, hcy.insert (.binary hexpr hx hy)⟩
      | call target args =>
        cases h
        exact ⟨.call hexpr, hc.insert (.call hexpr)⟩
      | error =>
        cases h
        exact ⟨.error hexpr, hc.insert (.error hexpr)⟩

theorem Folds.of_fold (h : doc.fold id = .ok value) : doc.Folds id value := by
  have h' : Prod.fst <$> (doc.foldWith doc.height id).run ∅ = .ok value := h
  cases hr : (doc.foldWith doc.height id).run ∅ with
  | error fault => rw [hr] at h'; cases h'
  | ok answer =>
    rw [hr] at h'
    cases h'
    exact (Folds.of_foldWith (cacheSound_empty doc) hr).1

/-- Where no expression contains itself, a folder with enough height finds every fold there is. -/
theorem exists_foldWith (hacyclic : doc.Acyclic) (hf : doc.Folds id value)
    (hrank : doc.rank id < height) (hc : doc.CacheSound cache) :
    ∃ rest, (doc.foldWith height id).run cache = .ok (value, rest) ∧ doc.CacheSound rest := by
  induction height generalizing id cache value with
  | zero => exact absurd hrank (Nat.not_lt_zero _)
  | succ height ih =>
    cases hfound : cache[id]? with
    | some found =>
      rw [foldWith_of_remembered hfound, (hc id found hfound).unique hf]
      exact ⟨cache, rfl, hc⟩
    | none =>
      rw [foldWith_of_new hfound]
      cases hf with
      | number h =>
        rw [expr_eq_ok.2 h]
        exact ⟨_, rfl, hc.insert (.number h)⟩
      | @binary _ left right op x y h hx hy =>
        have hleft := rank_lt_of_child (child_left h) (hacyclic id)
        have hright := rank_lt_of_child (child_right h) (hacyclic id)
        obtain ⟨afterLeft, hl, hcl⟩ := ih hx (by omega) hc
        obtain ⟨afterRight, hr, hcr⟩ := ih hy (by omega) hcl
        refine ⟨afterRight.insert id (Value.fold op x y), ?_, hcr.insert (.binary h hx hy)⟩
        rw [expr_eq_ok.2 h]
        show ((doc.foldWith height left).run cache >>= _) = _
        rw [hl]
        show ((doc.foldWith height right).run afterLeft >>= _) = _
        rw [hr]
        rfl
      | call h =>
        rw [expr_eq_ok.2 h]
        exact ⟨_, rfl, hc.insert (.call h)⟩
      | error h =>
        rw [expr_eq_ok.2 h]
        exact ⟨_, rfl, hc.insert (.error h)⟩

theorem fold_eq_ok (hacyclic : doc.Acyclic) : doc.fold id = .ok value ↔ doc.Folds id value := by
  refine ⟨Folds.of_fold, fun hf => ?_⟩
  obtain ⟨rest, hr, -⟩ :=
    exists_foldWith hacyclic hf (doc.rank_lt_height id) (cacheSound_empty doc)
  show Prod.fst <$> (doc.foldWith doc.height id).run ∅ = .ok value
  rw [hr]
  rfl

/-! ### Evaluation of what folds -/

/-- An expression that folds to a number has this number as its value. No body is entered on the way,
so that nothing depends on `enter`, and the stack is not even looked at. -/
theorem evalNode_of_folds {x : Binary64} (enter : Environment → ExprId → EvalM Value)
    (env : Environment) (hf : doc.Folds id (some x)) (hrank : doc.rank id < height) :
    doc.evalNode enter height env id = pure (some x) := by
  induction height generalizing id x with
  | zero => exact absurd hrank (Nat.not_lt_zero _)
  | succ height ih =>
    obtain h | ⟨op, left, right, a, b, h, hleft, hright, hfold⟩ := hf.inv_some
    · exact evalNode_of_number h
    · have hl := rank_lt_of_child (child_left h) hf.not_contains
      have hr := rank_lt_of_child (child_right h) hf.not_contains
      rw [evalNode_of_binary h, ih hleft (by omega), ih hright (by omega)]
      show pure (Value.operate op (some a) (some b)) = (pure (some x) : EvalM Value)
      rw [Value.operate_eq_of_fold hfold]

/-- `id` has the value `x` in every environment and on every stack, whatever its limit and its open
frames, and its evaluation leaves the stack as it was. -/
def Constant (doc : Document) (id : ExprId) (x : Binary64) : Prop :=
  ∀ (env : Environment) (stack : CallStack), doc.evalExpr env id stack = .ok (some x) stack

theorem constant_of_folds {x : Binary64} (hf : doc.Folds id (some x)) : doc.Constant id x := by
  intro env stack
  obtain ⟨enter, heq⟩ := doc.exists_evalWithin_eq stack.room
  show doc.evalWithin stack.room env id stack = _
  rw [heq, evalNode_of_folds enter env hf (doc.rank_lt_height id)]
  rfl

theorem Constant.attempt {x : Binary64} (h : doc.Constant id x) (env : Environment)
    (stack : CallStack) :
    EvalM.attempt (doc.evalExpr env id) stack = .ok (.ok (some x)) stack := by
  rw [EvalM.attempt, h env stack]

/-- **Folding and evaluation agree.** If an expression folds to a number, then its evaluation gives
the same datum, bit by bit.

* It is a constant: neither names nor the stack matter, and no error arises.
* Wherever it stands in a frame, below `root` on a way that passes no expression twice (which every
  way does that an evaluation can come back from), its evaluation is the action that answers at once:
  it opens no frame, for it has the same answer on a full stack, and enters no body, for it does not
  depend on `enter`.
* Outside of a document it has this value under every configuration.
* A statement with this expression is processed with this value, under both policies. -/
theorem evaluation_eq_fold {x : Binary64} (h : doc.fold id = .ok (some x)) :
    doc.Constant id x ∧
    (∀ (root : ExprId) (above : List ExprId), doc.Path root above id → above.Nodup →
      ∀ (enter : Environment → ExprId → EvalM Value) (env : Environment),
        doc.evalNode enter (doc.height - above.length) env id = pure (some x)) ∧
    (∀ evaluator : Evaluator, evaluator.document = doc →
      (evaluator.evalDetached id).1 = .ok (some x)) ∧
    doc.evaluateExpr id = .ok (some x) ∧
    (∀ (policy : ErrorPolicy) (pass : Pass) (stack : CallStack),
      (∀ (number : EvaluationId) (evaluation : Evaluation),
        doc.evaluations[number.index]? = some evaluation → evaluation.expr = id →
        doc.runStatement policy pass (.evaluation number) stack =
          .ok { pass with results := pass.results.record number (.ok (some x)) } stack) ∧
      ∀ (number : DefId) (definition : Definition),
        doc.definitions[number.index]? = some definition → definition.body = id →
        definition.isFunction = false →
        doc.runStatement policy pass (.definition number) stack =
          .ok { pass with env := pass.env.define definition.name (.value (some x)) } stack) := by
  have hf : doc.Folds id (some x) := Folds.of_fold h
  have hconst : doc.Constant id x := constant_of_folds hf
  have hdetached : ∀ evaluator : Evaluator, evaluator.document = doc →
      (evaluator.evalDetached id).1 = .ok (some x) := by
    rintro evaluator rfl
    rw [Evaluator.evalDetached, Evaluator.perform, hconst]
  refine ⟨hconst, ?_, hdetached, hdetached _ rfl, ?_⟩
  · intro root above hpath hnodup enter env
    have hroom := rank_add_length_lt_height hpath hnodup hf.not_contains
    exact evalNode_of_folds enter env hf (by omega)
  · intro policy pass stack
    refine ⟨?_, ?_⟩
    · rintro number evaluation hev rfl
      exact runStatement_of_evaluation hev (hconst.attempt pass.env stack)
    · rintro number definition hdef rfl hvar
      exact runStatement_of_variable hdef hvar (hconst.attempt pass.env stack)

/-- The difference `2 ^ 3 % 3 - 2 ^ 3` with a shared power, as the argument of a call that was never
linked, beside an expression that contains itself. -/
def sharedPower : Document where
  exprs := #[.number ⟨0x4000000000000000⟩, .number ⟨0x4008000000000000⟩, .binary .pow ⟨0⟩ ⟨1⟩,
    .binary .mod ⟨2⟩ ⟨1⟩, .binary .sub ⟨3⟩ ⟨2⟩, .call none [⟨4⟩], .binary .add ⟨6⟩ ⟨4⟩]
  evaluations := #[{ expr := ⟨5⟩, source := none }]
  statements := #[.evaluation ⟨0⟩]

theorem sharedPower_constant :
    sharedPower.fold ⟨4⟩ = .ok (some ⟨0xc018000000000000⟩) ∧
      sharedPower.Constant ⟨4⟩ ⟨0xc018000000000000⟩ := by
  have h : sharedPower.fold ⟨4⟩ = .ok (some ⟨0xc018000000000000⟩) := by decide +kernel
  exact ⟨h, (evaluation_eq_fold h).1⟩

end Reckon.Document
