import Reckon.Proofs.Preorder
import Reckon.Proofs.Folding
import Reckon.Proofs.Recursion

/-!
# Operators and their leaves

An operator has no say in whether an evaluation succeeds, or whether there is a value: that is up to
the expressions under the operators that are not operators themselves. This file states the rule for
any environment, and what is left of it where no name is bound.

* `Document.leaves`: the expressions without operands under an expression, from left to right, once
  for each way to reach them. It satisfies its own recursion where no expression contains itself
  (`leaves_eq`).
* `Document.FirstStop`: the first expression of a list to stop, stops so.
* `evalExpr_leaves`: an expression stops as the first of its leaves does. Otherwise it has a value
  exactly if one of them has.
* `Document.DetachedAnswer`: the answer where no name is bound. Only links and literals count for
  it, and arguments do not (`evalNode_of_sameButArguments`).
* `evaluation_by_leaves`: all of it together.
-/

namespace Reckon

/-- Without a value on either side, and only then, an operator has none. -/
theorem Value.operate_eq_none {op : Operator} {left right : Value} :
    operate op left right = none ↔ left = none ∧ right = none := by
  cases right <;> simp [operate]

/-- The expression with the arguments of a call left out. -/
def Expr.withoutArguments : Expr → Expr
  | .call target _ => .call target []
  | expr => expr

namespace Document

variable {doc : Document} {env : Environment} {stack : CallStack} {id leaf : ExprId}
  {height : ℕ} {stop : Stop} {list : List ExprId}

/-! ### Leaves -/

/-- The leaves of an expression that nests at most `height` levels deep. -/
def leavesWithin (doc : Document) : (height : ℕ) → ExprId → List ExprId
  | 0, _ => []
  | height + 1, id =>
    match doc.exprs[id.index]? with
    | some (.binary _ left right) => doc.leavesWithin height left ++ doc.leavesWithin height right
    | _ => [id]

/-- The expressions without operands that are reached through operands, from left to right. A shared
expression is listed once for each way to reach it. -/
def leaves (doc : Document) (id : ExprId) : List ExprId :=
  doc.leavesWithin doc.height id

theorem leavesWithin_of_binary {op : Operator} {left right : ExprId}
    (h : doc.exprs[id.index]? = some (.binary op left right)) :
    doc.leavesWithin (height + 1) id =
      doc.leavesWithin height left ++ doc.leavesWithin height right := by
  rw [leavesWithin, h]

theorem leavesWithin_of_leaf
    (h : ∀ op left right, doc.exprs[id.index]? ≠ some (.binary op left right)) :
    doc.leavesWithin (height + 1) id = [id] := by
  rw [leavesWithin]
  split
  · rename_i hexpr
    exact absurd hexpr (h _ _ _)
  · rfl

/-- Any two heights above the rank give the same leaves. -/
theorem leavesWithin_eq_of_rank_lt (hacyclic : doc.Acyclic) {other : ℕ} (h : doc.rank id < height)
    (h' : doc.rank id < other) : doc.leavesWithin height id = doc.leavesWithin other id := by
  induction height generalizing id other with
  | zero => exact absurd h (Nat.not_lt_zero _)
  | succ height ih =>
    obtain ⟨other, rfl⟩ : ∃ less, other = less + 1 := ⟨other - 1, by omega⟩
    by_cases hbinary : ∃ op left right, doc.exprs[id.index]? = some (.binary op left right)
    · obtain ⟨op, left, right, hexpr⟩ := hbinary
      have hleft := rank_lt_of_child (child_left hexpr) (hacyclic id)
      have hright := rank_lt_of_child (child_right hexpr) (hacyclic id)
      have hl : doc.leavesWithin height left = doc.leavesWithin other left :=
        ih (by omega) (by omega)
      have hr : doc.leavesWithin height right = doc.leavesWithin other right :=
        ih (by omega) (by omega)
      rw [leavesWithin_of_binary hexpr, leavesWithin_of_binary hexpr, hl, hr]
    · simp only [not_exists] at hbinary
      rw [leavesWithin_of_leaf hbinary, leavesWithin_of_leaf hbinary]

theorem leaves_of_leaf (h : ∀ op left right, doc.exprs[id.index]? ≠ some (.binary op left right)) :
    doc.leaves id = [id] :=
  leavesWithin_of_leaf h

theorem leaves_of_binary {op : Operator} {left right : ExprId} (hacyclic : doc.Acyclic)
    (h : doc.exprs[id.index]? = some (.binary op left right)) :
    doc.leaves id = doc.leaves left ++ doc.leaves right := by
  have hpart : ∀ part, doc.Child id part →
      doc.leavesWithin doc.exprs.size part = doc.leaves part := by
    intro part hchild
    have hlt := rank_lt_of_child hchild (hacyclic id)
    have hle := doc.rank_le_size id
    exact leavesWithin_eq_of_rank_lt hacyclic (by omega) (doc.rank_lt_height part)
  rw [leaves, height, leavesWithin_of_binary h, hpart left (child_left h),
    hpart right (child_right h)]

theorem leaves_eq (hacyclic : doc.Acyclic) (id : ExprId) :
    doc.leaves id =
      match doc.exprs[id.index]? with
      | some (.binary _ left right) => doc.leaves left ++ doc.leaves right
      | _ => [id] := by
  split
  · rename_i hexpr
    exact leaves_of_binary hacyclic hexpr
  · rename_i hnot
    exact leaves_of_leaf hnot

/-- Induction over operators: from the operands to the operator, and all else at once. -/
theorem induction_of_operands (hacyclic : doc.Acyclic) {motive : ExprId → Prop}
    (leaf : ∀ id, (∀ op left right, doc.exprs[id.index]? ≠ some (.binary op left right)) →
      motive id)
    (binary : ∀ id op left right, doc.exprs[id.index]? = some (.binary op left right) →
      motive left → motive right → motive id) (id : ExprId) : motive id := by
  induction id using induction_of_acyclic hacyclic with
  | step id ih =>
    by_cases h : ∃ op left right, doc.exprs[id.index]? = some (.binary op left right)
    · obtain ⟨op, left, right, hexpr⟩ := h
      have hleft := ih left (child_left hexpr)
      have hright := ih right (child_right hexpr)
      exact binary id op left right hexpr hleft hright
    · simp only [not_exists] at h
      exact leaf id h

/-- Leaves are in the operator tree, and are no operators. -/
theorem operatorTree_of_mem_leaves (hacyclic : doc.Acyclic) (h : leaf ∈ doc.leaves id) :
    doc.OperatorTree id leaf ∧
      ∀ op left right, doc.exprs[leaf.index]? ≠ some (.binary op left right) := by
  induction id using induction_of_operands hacyclic with
  | leaf id hnot =>
    rw [leaves_of_leaf hnot, List.mem_singleton] at h
    subst h
    exact ⟨.root, hnot⟩
  | binary id op left right hexpr ihl ihr =>
    rw [leaves_of_binary hacyclic hexpr, List.mem_append] at h
    rcases h with hleft | hright
    · exact ⟨.left hexpr (ihl hleft).1, (ihl hleft).2⟩
    · exact ⟨.right hexpr (ihr hright).1, (ihr hright).2⟩

/-! ### Evaluation -/

/-- The first expression of the list that stops, stops so, and those before it come to values. -/
inductive FirstStop (doc : Document) (env : Environment) (stack : CallStack) :
    List ExprId → Stop → Prop
  | head {id : ExprId} {rest : List ExprId} {stop : Stop}
      (h : doc.evalExpr env id stack = .error stop stack) :
      FirstStop doc env stack (id :: rest) stop
  | tail {id : ExprId} {rest : List ExprId} {stop : Stop} {value : Value}
      (h : doc.evalExpr env id stack = .ok value stack)
      (hrest : FirstStop doc env stack rest stop) :
      FirstStop doc env stack (id :: rest) stop

theorem FirstStop.append (h : doc.FirstStop env stack list stop) (more : List ExprId) :
    doc.FirstStop env stack (list ++ more) stop := by
  induction h with
  | head h => exact .head h
  | tail h _ ih => exact .tail h ih

theorem FirstStop.after {more : List ExprId} (h : doc.FirstStop env stack more stop)
    (hlist : ∀ id ∈ list, ∃ value, doc.evalExpr env id stack = .ok value stack) :
    doc.FirstStop env stack (list ++ more) stop := by
  induction list with
  | nil => exact h
  | cons id list ih =>
    obtain ⟨value, hvalue⟩ := hlist id List.mem_cons_self
    exact .tail hvalue (ih fun x hx => hlist x (List.mem_cons_of_mem id hx))

theorem FirstStop.exists_mem (h : doc.FirstStop env stack list stop) :
    ∃ id ∈ list, doc.evalExpr env id stack = .error stop stack := by
  induction h with
  | head h => exact ⟨_, List.mem_cons_self, h⟩
  | tail _ _ ih =>
    obtain ⟨id, hmem, hstop⟩ := ih
    exact ⟨id, List.mem_cons_of_mem _ hmem, hstop⟩

theorem FirstStop.unique {other : Stop} (h : doc.FirstStop env stack list stop)
    (h' : doc.FirstStop env stack list other) : stop = other := by
  induction h with
  | head h =>
    cases h' with
    | head h' =>
      rw [h] at h'
      cases h'
      rfl
    | tail h' _ =>
      rw [h] at h'
      cases h'
  | tail h _ ih =>
    cases h' with
    | head h' =>
      rw [h] at h'
      cases h'
    | tail _ hrest => exact ih hrest

/-- How an evaluation goes, by a list of expressions that stand for it: all of them come to values,
and there is a value in the end exactly if one of them is not missing; or one of them is the first
to stop, and the evaluation stops with it. -/
inductive GoesBy (doc : Document) (env : Environment) (stack : CallStack) (id : ExprId)
    (list : List ExprId) : Prop
  | value {value : Value} (h : doc.evalExpr env id stack = .ok value stack)
      (hlist : ∀ leaf ∈ list, ∃ value, doc.evalExpr env leaf stack = .ok value stack)
      (hnone : value = none ↔ ∀ leaf ∈ list, doc.evalExpr env leaf stack = .ok none stack)
  | stop {stop : Stop} (h : doc.evalExpr env id stack = .error stop stack)
      (hfirst : doc.FirstStop env stack list stop)

/-- **An evaluation goes by its leaves.** -/
theorem evalExpr_leaves (hacyclic : doc.Acyclic) (env : Environment) (stack : CallStack)
    (id : ExprId) : doc.GoesBy env stack id (doc.leaves id) := by
  induction id using induction_of_operands hacyclic with
  | leaf id hnot =>
    rw [leaves_of_leaf hnot]
    obtain ⟨value, hvalue, -⟩ | ⟨stop, hstop, -⟩ := doc.evalExpr_ends env id stack
    · refine .value hvalue (by simpa using ⟨value, hvalue⟩) ?_
      simp [hvalue]
    · exact .stop hstop (.head hstop)
  | binary id op left right hexpr ihl ihr =>
    have hrun : doc.evalExpr env id stack = (do
        let x ← doc.evalExpr env left
        let y ← doc.evalExpr env right
        return Value.operate op x y) stack := by
      rw [evalExpr_of_binary hacyclic hexpr]
    rw [leaves_of_binary hacyclic hexpr]
    cases ihl with
    | stop hstop hfirst =>
      refine .stop ?_ (hfirst.append _)
      simp only [hrun, bind, EStateM.bind, hstop]
    | @value x hx hleft hnoneLeft =>
      cases ihr with
      | stop hstop hfirst =>
        refine .stop ?_ (hfirst.after hleft)
        simp only [hrun, bind, EStateM.bind, hx, hstop]
      | @value y hy hright hnoneRight =>
        have hvalue : doc.evalExpr env id stack = .ok (Value.operate op x y) stack := by
          simp only [hrun, bind, EStateM.bind, hx, hy]
          rfl
        refine .value hvalue (List.forall_mem_append.2 ⟨hleft, hright⟩) ?_
        rw [Value.operate_eq_none, hnoneLeft, hnoneRight, List.forall_mem_append]

/-- An expression stops exactly as the first of its leaves does. -/
theorem evalExpr_eq_error_iff (hacyclic : doc.Acyclic) :
    doc.evalExpr env id stack = .error stop stack ↔
      doc.FirstStop env stack (doc.leaves id) stop := by
  cases evalExpr_leaves hacyclic env stack id with
  | value h hlist hnone =>
    constructor
    · intro hstop
      rw [h] at hstop
      cases hstop
    · intro hfirst
      obtain ⟨leaf, hmem, hstop⟩ := hfirst.exists_mem
      obtain ⟨value, hvalue⟩ := hlist leaf hmem
      rw [hvalue] at hstop
      cases hstop
  | stop h hfirst =>
    constructor
    · intro hstop
      rw [h] at hstop
      cases hstop
      exact hfirst
    · intro hother
      rw [h, hfirst.unique hother]

/-- Where the functions of the environment are in the document, an expression fails exactly if one
of its leaves does. -/
theorem WellFormed.exists_error_iff (h : doc.WellFormed) (hk : env.Known doc)
    (hid : id.index < doc.exprs.size) :
    (∃ error, doc.evalExpr env id stack = .error (.error error) stack) ↔
      ∃ leaf ∈ doc.leaves id, ∃ error,
        doc.evalExpr env leaf stack = .error (.error error) stack := by
  constructor
  · rintro ⟨error, herror⟩
    obtain ⟨leaf, hmem, hleaf⟩ := ((evalExpr_eq_error_iff h.acyclic).1 herror).exists_mem
    exact ⟨leaf, hmem, error, hleaf⟩
  · rintro ⟨leaf, hmem, error, hleaf⟩
    rcases evalExpr_answers h hk hid stack with ⟨value, hvalue⟩ | herror
    · cases evalExpr_leaves h.acyclic env stack id with
      | value _ hlist _ =>
        obtain ⟨other, hother⟩ := hlist leaf hmem
        rw [hleaf] at hother
        cases hother
      | stop hstop _ =>
        rw [hvalue] at hstop
        cases hstop
    · exact herror

theorem WellFormed.exists_value_of_leaves (h : doc.WellFormed) (hk : env.Known doc)
    (hid : id.index < doc.exprs.size)
    (hleaves : ∀ leaf ∈ doc.leaves id, ∀ error,
      doc.evalExpr env leaf stack ≠ .error (.error error) stack) :
    ∃ value, doc.evalExpr env id stack = .ok value stack ∧
      (value = none ↔ ∀ leaf ∈ doc.leaves id, doc.evalExpr env leaf stack = .ok none stack) := by
  cases evalExpr_leaves h.acyclic env stack id with
  | value hvalue _ hnone => exact ⟨_, hvalue, hnone⟩
  | stop hstop _ =>
    rcases evalExpr_answers h hk hid stack with ⟨value, hvalue⟩ | herror
    · rw [hvalue] at hstop
      cases hstop
    · obtain ⟨leaf, hmem, error, hleaf⟩ := (h.exists_error_iff hk hid).1 herror
      exact absurd hleaf (hleaves leaf hmem error)

/-! ### Where no name is bound -/

/-- A call without a target, or with one that is not in the document. -/
def isUnlinked (doc : Document) (id : ExprId) : Bool :=
  match doc.exprs[id.index]? with
  | some (.call target _) => (target.bind doc.targetName?).isNone
  | _ => false

/-- The literal value, of a literal. -/
def literal? (doc : Document) (id : ExprId) : Value :=
  doc.exprs[id.index]?.bind Expr.value?

/-- Where no name is bound, a call that is not linked is an error, a literal has its value, and no
other leaf has one. -/
theorem evalExpr_empty_of_leaf (hid : id.index < doc.exprs.size)
    (h : ∀ op left right, doc.exprs[id.index]? ≠ some (.binary op left right)) (stack : CallStack) :
    doc.evalExpr .empty id stack =
      if doc.isUnlinked id then .error (.error (.unlinkedReference id)) stack
      else .ok (doc.literal? id) stack := by
  obtain ⟨expr, hexpr⟩ : ∃ expr, doc.exprs[id.index]? = some expr :=
    ⟨_, Array.getElem?_eq_getElem hid⟩
  rw [isUnlinked, literal?, hexpr]
  cases expr with
  | number x =>
    rw [evalExpr_of_number hexpr]
    rfl
  | binary op left right => exact absurd hexpr (h op left right)
  | call target args =>
    cases hname : target.bind doc.targetName? with
    | none =>
      rw [evalExpr_of_unlinked hexpr hname]
      simp only [hname]
      rfl
    | some name =>
      rw [evalExpr_of_unbound hexpr hname (Environment.lookup_empty name)]
      simp only [hname]
      rfl
  | error =>
    rw [evalExpr_of_error hexpr]
    rfl

/-- The first leaf that is not linked is the first to stop. -/
theorem firstStop_of_find? {call : ExprId}
    (h : ∀ leaf ∈ list, doc.evalExpr .empty leaf stack =
      if doc.isUnlinked leaf then .error (.error (.unlinkedReference leaf)) stack
      else .ok (doc.literal? leaf) stack)
    (hfind : list.find? doc.isUnlinked = some call) :
    doc.FirstStop .empty stack list (.error (.unlinkedReference call)) := by
  induction list with
  | nil => cases hfind
  | cons id list ih =>
    have hid := h id List.mem_cons_self
    rw [List.find?_cons] at hfind
    split at hfind
    · rename_i hunlinked
      cases hfind
      rw [if_pos hunlinked] at hid
      exact .head hid
    · rename_i hlinked
      rw [if_neg (by simp [hlinked])] at hid
      exact .tail hid (ih (fun x hx => h x (List.mem_cons_of_mem id hx)) hfind)

/-- Under the operators of a well-formed document, leaves are evaluated so where no name is
bound. -/
theorem WellFormed.evalExpr_empty_of_mem_leaves (h : doc.WellFormed)
    (hid : id.index < doc.exprs.size) (hleaf : leaf ∈ doc.leaves id) (stack : CallStack) :
    doc.evalExpr .empty leaf stack =
      if doc.isUnlinked leaf then .error (.error (.unlinkedReference leaf)) stack
      else .ok (doc.literal? leaf) stack := by
  obtain ⟨htree, hnot⟩ := operatorTree_of_mem_leaves h.acyclic hleaf
  exact evalExpr_empty_of_leaf (h.index_lt_of_within hid htree.within) hnot stack

/-- The answer by the leaves: an error at the first of them that is not linked, if there is one.
Otherwise there is a value, unless none of them is a literal. -/
def DetachedAnswer (doc : Document) (id : ExprId) (answer : Except Stop Value) : Prop :=
  match (doc.leaves id).find? doc.isUnlinked with
  | some call => answer = .error (.error (.unlinkedReference call))
  | none => ∃ value, answer = .ok value ∧
      (value = none ↔ ∀ leaf ∈ doc.leaves id, doc.literal? leaf = none)

theorem WellFormed.detachedAnswer (h : doc.WellFormed) (hid : id.index < doc.exprs.size)
    (evaluator : Evaluator) (hdoc : evaluator.document = doc) :
    doc.DetachedAnswer id (evaluator.evalDetached id).1 := by
  rw [DetachedAnswer, Evaluator.evalDetached, Evaluator.perform, hdoc]
  generalize CallStack.new evaluator.config.maxCallDepth = stack
  have hleaf : ∀ leaf ∈ doc.leaves id, doc.evalExpr .empty leaf stack =
      if doc.isUnlinked leaf then .error (.error (.unlinkedReference leaf)) stack
      else .ok (doc.literal? leaf) stack :=
    fun leaf hmem => h.evalExpr_empty_of_mem_leaves hid hmem stack
  cases hfind : (doc.leaves id).find? doc.isUnlinked with
  | some call =>
    dsimp only
    rw [(evalExpr_eq_error_iff h.acyclic).2 (firstStop_of_find? hleaf hfind)]
  | none =>
    have hlinked : ∀ leaf ∈ doc.leaves id,
        doc.evalExpr .empty leaf stack = .ok (doc.literal? leaf) stack := by
      intro leaf hmem
      rw [hleaf leaf hmem, if_neg (List.find?_eq_none.1 hfind leaf hmem)]
    cases evalExpr_leaves h.acyclic .empty stack id with
    | stop _ hfirst =>
      obtain ⟨leaf, hmem, hstop⟩ := hfirst.exists_mem
      rw [hlinked leaf hmem] at hstop
      cases hstop
    | @value value hvalue _ hnone =>
      refine ⟨value, by rw [hvalue], ?_⟩
      rw [hnone]
      refine forall₂_congr fun leaf hmem => ?_
      rw [hlinked leaf hmem]
      simp

/-! ### Arguments -/

theorem targetName?_withExprs (doc : Document) (exprs : Array Expr) :
    ({ doc with exprs } : Document).targetName? = doc.targetName? := by
  funext target
  cases target <;> rfl

section Arguments

variable {exprs : Array Expr}

/-- In tables that are the same but for arguments, an expression is the same or both are calls of
the same target. -/
theorem getElem?_of_sameButArguments
    (h : exprs.map Expr.withoutArguments = doc.exprs.map Expr.withoutArguments) (index : ℕ) :
    exprs[index]? = doc.exprs[index]? ∨ ∃ target args args',
      exprs[index]? = some (.call target args') ∧ doc.exprs[index]? = some (.call target args) := by
  have hget : exprs[index]?.map Expr.withoutArguments =
      doc.exprs[index]?.map Expr.withoutArguments := by
    simpa using congrArg (fun table : Array Expr => table[index]?) h
  cases hexpr : doc.exprs[index]? with
  | none =>
    rw [hexpr] at hget
    exact Or.inl (Option.map_eq_none_iff.1 hget)
  | some expr =>
    rw [hexpr] at hget
    obtain ⟨expr', hexpr', hsame⟩ := Option.map_eq_some_iff.1 hget
    rw [hexpr']
    cases expr <;> cases expr' <;> simp_all [Expr.withoutArguments]

/-- Where no name is bound, a call is not linked or has no value, whatever its arguments. -/
theorem evalNode_empty_of_call {enter : Environment → ExprId → EvalM Value}
    {target : Option CallTarget} {args : List ExprId}
    (h : doc.exprs[id.index]? = some (.call target args)) :
    doc.evalNode enter (height + 1) .empty id =
      match target.bind doc.targetName? with
      | none => throw (.error (.unlinkedReference id))
      | some _ => pure none := by
  cases hname : target.bind doc.targetName? with
  | none => exact evalNode_of_unlinked h hname
  | some name => exact evalNode_of_unbound h hname (Environment.lookup_empty name)

/-- Where no name is bound, the arguments of calls can be anything, even indices that point nowhere
or lead back to the call: no evaluation comes by them. -/
theorem evalNode_of_sameButArguments
    (h : exprs.map Expr.withoutArguments = doc.exprs.map Expr.withoutArguments)
    (enter enter' : Environment → ExprId → EvalM Value) (height : ℕ) (id : ExprId) :
    ({ doc with exprs } : Document).evalNode enter' height .empty id =
      doc.evalNode enter height .empty id := by
  have hsize : exprs.size = doc.exprs.size := by simpa using congrArg Array.size h
  induction height generalizing id with
  | zero => rfl
  | succ height ih =>
    have hcall : ∀ {target args args'}, exprs[id.index]? = some (.call target args') →
        doc.exprs[id.index]? = some (.call target args) →
        ({ doc with exprs } : Document).evalNode enter' (height + 1) .empty id =
          doc.evalNode enter (height + 1) .empty id := by
      intro target args args' hexpr' hexpr
      rw [evalNode_empty_of_call hexpr, evalNode_empty_of_call hexpr', targetName?_withExprs]
    rcases getElem?_of_sameButArguments h id.index with hsame | ⟨target, args, args', hexpr', hexpr⟩
    · cases hexpr : doc.exprs[id.index]? with
      | none =>
        have hle : doc.exprs.size ≤ id.index := Array.getElem?_eq_none_iff.1 hexpr
        have hle' : exprs.size ≤ id.index := hsize ▸ hle
        rw [evalNode_of_size_le hle, evalNode_of_size_le hle', hsize]
      | some expr =>
        have hexpr' : exprs[id.index]? = some expr := hsame.trans hexpr
        cases expr with
        | number x => rw [evalNode_of_number hexpr, evalNode_of_number hexpr']
        | binary op left right => rw [evalNode_of_binary hexpr, evalNode_of_binary hexpr', ih, ih]
        | call target args => exact hcall hexpr' hexpr
        | error => rw [evalNode_of_error hexpr, evalNode_of_error hexpr']
    · exact hcall hexpr' hexpr

theorem evalExpr_of_sameButArguments
    (h : exprs.map Expr.withoutArguments = doc.exprs.map Expr.withoutArguments) (id : ExprId) :
    ({ doc with exprs } : Document).evalExpr .empty id = doc.evalExpr .empty id := by
  have hsize : exprs.size = doc.exprs.size := by simpa using congrArg Array.size h
  funext stack
  obtain ⟨enter, heq⟩ := doc.exists_evalWithin_eq stack.room
  obtain ⟨enter', heq'⟩ := ({ doc with exprs } : Document).exists_evalWithin_eq stack.room
  show ({ doc with exprs } : Document).evalWithin stack.room .empty id stack =
    doc.evalWithin stack.room .empty id stack
  rw [heq, heq', height, height, hsize, evalNode_of_sameButArguments h enter enter']

theorem evalDetached_of_sameButArguments
    (h : exprs.map Expr.withoutArguments = doc.exprs.map Expr.withoutArguments)
    (evaluator : Evaluator) (hdoc : evaluator.document = doc) (id : ExprId) :
    ({ evaluator with document := { doc with exprs } }.evalDetached id).1 =
      (evaluator.evalDetached id).1 := by
  simp only [Evaluator.evalDetached, Evaluator.perform, evalExpr_of_sameButArguments h, hdoc]
  split <;> rfl

end Arguments

/-! ### All of it -/

/-- **An expression goes by its leaves.** Take an expression of a well-formed document. Its leaves
are what is reached through operands without being an operator, from left to right and once for each
way. In an environment whose functions are in the document, and on any stack, it fails exactly if
one of its leaves does, with the error of the first of them. If none does, it has a value exactly if
one of its leaves has. Where no name is bound, under any configuration, the answer is the error of
the first leaf that is a call without a link, and otherwise a value exactly if one of the leaves is
a literal; what the arguments of calls are makes no difference. -/
theorem evaluation_by_leaves (h : doc.WellFormed) (hid : id.index < doc.exprs.size) :
    (∀ node : ExprId, doc.leaves node =
      match doc.exprs[node.index]? with
      | some (.binary _ left right) => doc.leaves left ++ doc.leaves right
      | _ => [node]) ∧
    (∀ (env : Environment) (stack : CallStack), env.Known doc →
      (∀ error, doc.evalExpr env id stack = .error (.error error) stack ↔
        doc.FirstStop env stack (doc.leaves id) (.error error)) ∧
      ((∃ error, doc.evalExpr env id stack = .error (.error error) stack) ↔
        ∃ leaf ∈ doc.leaves id, ∃ error,
          doc.evalExpr env leaf stack = .error (.error error) stack) ∧
      ((∀ leaf ∈ doc.leaves id, ∀ error,
          doc.evalExpr env leaf stack ≠ .error (.error error) stack) →
        ∃ value, doc.evalExpr env id stack = .ok value stack ∧
          (value = none ↔
            ∀ leaf ∈ doc.leaves id, doc.evalExpr env leaf stack = .ok none stack))) ∧
    (∀ evaluator : Evaluator, evaluator.document = doc →
      doc.DetachedAnswer id (evaluator.evalDetached id).1) ∧
    doc.DetachedAnswer id (doc.evaluateExpr id) ∧
    ∀ exprs : Array Expr,
      exprs.map Expr.withoutArguments = doc.exprs.map Expr.withoutArguments →
      ({ doc with exprs } : Document).evaluateExpr id = doc.evaluateExpr id ∧
      ∀ evaluator : Evaluator, evaluator.document = doc →
        ({ evaluator with document := { doc with exprs } }.evalDetached id).1 =
          (evaluator.evalDetached id).1 := by
  refine ⟨leaves_eq h.acyclic, fun env stack hk => ⟨?_, ?_, ?_⟩, ?_, ?_,
    fun exprs hexprs => ⟨?_, ?_⟩⟩
  · exact fun error => evalExpr_eq_error_iff h.acyclic
  · exact h.exists_error_iff hk hid
  · exact h.exists_value_of_leaves hk hid
  · exact h.detachedAnswer hid
  · exact h.detachedAnswer hid (.new doc default) rfl
  · exact evalDetached_of_sameButArguments hexprs (.new doc default) rfl id
  · exact fun evaluator hdoc => evalDetached_of_sameButArguments hexprs evaluator hdoc id

/-- With `f` a function of two parameters, `e` a gap where no expression could be read and `g` a
name that was not found, there are `a = e - f (2)`, `b = a + 2`, `b * b` and `b * b / g`. -/
def sharedLeaves : Document where
  exprs := #[.number ⟨0x4000000000000000⟩, .error, .call (some (.definition ⟨0⟩)) [⟨0⟩],
    .call none [], .binary .sub ⟨1⟩ ⟨2⟩, .binary .add ⟨4⟩ ⟨0⟩, .binary .mul ⟨5⟩ ⟨5⟩,
    .binary .div ⟨6⟩ ⟨3⟩]
  definitions := #[{ name := ⟨1⟩, params := [⟨2⟩, ⟨3⟩], body := ⟨0⟩ }]
  statements := #[.definition ⟨0⟩]

/-- Where `f` is bound, `b * b / g` fails at the call of `f`, which has the wrong number of
arguments. Where no name is bound it fails at `g`; `b * b` has a value, as there is a `2` in it, and
`a` has none. What `f` is called with can be anything, such as the call itself. -/
theorem sharedLeaves_answers :
    sharedLeaves.WellFormed ∧
      sharedLeaves.leaves ⟨7⟩ = [⟨1⟩, ⟨2⟩, ⟨0⟩, ⟨1⟩, ⟨2⟩, ⟨0⟩, ⟨3⟩] ∧
      sharedLeaves.evalExpr (Environment.empty.define ⟨1⟩ (.function ⟨0⟩)) ⟨7⟩ (.new 3) =
        .error (.error (.arityMismatch "" ⟨0⟩ ⟨2⟩ 2 1)) (.new 3) ∧
      sharedLeaves.evaluateExpr ⟨7⟩ = .error (.error (.unlinkedReference ⟨3⟩)) ∧
      (∃ x, sharedLeaves.evaluateExpr ⟨6⟩ = .ok (some x)) ∧
      sharedLeaves.evaluateExpr ⟨4⟩ = .ok none ∧
      ∀ args exprs, exprs = sharedLeaves.exprs.set 2 (.call (some (.definition ⟨0⟩)) args) →
        ({ sharedLeaves with exprs } : Document).evaluateExpr ⟨6⟩ =
          sharedLeaves.evaluateExpr ⟨6⟩ := by
  have hw : sharedLeaves.WellFormed :=
    wellFormed_of_earlier (by decide) (by decide) (by decide) (by decide)
  have hk : (Environment.empty.define ⟨1⟩ (.function ⟨0⟩)).Known sharedLeaves := by
    apply (Environment.known_empty sharedLeaves).define
    intro id hid
    cases hid
    decide
  obtain ⟨-, hknown, -, hquotient, -⟩ := @evaluation_by_leaves sharedLeaves ⟨7⟩ hw (by decide)
  obtain ⟨-, -, -, hproduct, hargs⟩ := @evaluation_by_leaves sharedLeaves ⟨6⟩ hw (by decide)
  obtain ⟨-, -, -, hdifference, -⟩ := @evaluation_by_leaves sharedLeaves ⟨4⟩ hw (by decide)
  refine ⟨hw, rfl, ?_, hquotient, ?_, ?_, ?_⟩
  · -- the gap comes first and has no value
    exact ((hknown _ (.new 3) hk).1 _).2 (.tail rfl (.head rfl))
  · obtain ⟨value, hvalue, hnone⟩ := hproduct
    cases value with
    | none => exact absurd (hnone.1 rfl ⟨0⟩ (by decide)) (by decide)
    | some x => exact ⟨x, hvalue⟩
  · obtain ⟨value, hvalue, hnone⟩ := hdifference
    rw [hvalue, hnone.2 (by decide)]
  · intro args exprs hexprs
    refine (hargs exprs ?_).1
    simp [hexprs, sharedLeaves, Expr.withoutArguments]

end Document

end Reckon
