import Reckon.Proofs.Balance

/-!
# Evaluation by its own recursion

`Document.evalExpr` carries two bounds, one for the nesting of expressions and one for the frames
that can still be opened. Where no expression contains itself neither of them shows. This file
states the recursion that is left: an operator evaluates its operands, and a call its arguments and
then, in a frame of its own, the body of the function.

* `EvalM.bind_congr`, `EvalM.mapM_congr`, `EvalM.inFrame_congr`: actions that do the same on a stack
  can stand for one another in sequences, lists and frames, if the stack is left as it was.
* `evalNode_eq_of_rank_lt`: every height above the rank does.
* `evalExpr_of_binary`, `evalExpr_of_calls`: the recursion, beside equations for expressions whose
  parts are not evaluated.
-/

namespace Reckon

/-! ### Actions that do the same on a stack -/

namespace EvalM

variable {α β : Type} {values : α → Prop} {stops : Stop → Prop} {stack : CallStack}

theorem bind_congr {action action' : EvalM α} {next next' : α → EvalM β}
    (hends : action.Ends values stops stack) (h : action stack = action' stack)
    (hnext : ∀ a, next a stack = next' a stack) :
    (action >>= next) stack = (action' >>= next') stack := by
  simp only [bind, EStateM.bind, ← h]
  rcases hends with ⟨a, ha, -⟩ | ⟨stop, hs, -⟩
  · simp only [ha]
    exact hnext a
  · simp only [hs]

theorem mapM_congr {f g : α → EvalM β} {results : β → Prop} {list : List α}
    (hends : ∀ a ∈ list, (f a).Ends results stops stack)
    (h : ∀ a ∈ list, f a stack = g a stack) : list.mapM f stack = list.mapM g stack := by
  induction list with
  | nil => rfl
  | cons a list ih =>
    rw [List.mapM_cons, List.mapM_cons]
    apply bind_congr (hends a List.mem_cons_self) (h a List.mem_cons_self)
    intro b
    have hrest := ih (fun x hx => hends x (List.mem_cons_of_mem a hx))
      fun x hx => h x (List.mem_cons_of_mem a hx)
    simp only [bind, EStateM.bind, hrest]

/-- In a frame only the stack with this frame on it counts. -/
theorem inFrame_congr {doc : Document} {frame : Frame} {action action' : EvalM α}
    (h : ∀ inner, CallStack.push doc frame stack = .ok () inner → action inner = action' inner) :
    inFrame doc frame action stack = inFrame doc frame action' stack := by
  unfold inFrame
  cases hpush : CallStack.push doc frame stack with
  | error stop next => rfl
  | ok _ inner => simp only [h inner hpush]

end EvalM

namespace Document

variable {doc : Document} {enter : Environment → ExprId → EvalM Value} {env : Environment}
  {id : ExprId} {height : ℕ} {target : Option CallTarget} {args : List ExprId} {name : Name}
  {function : DefId} {definition : Definition}

/-! ### Height -/

theorem evalCall_congr {argument argument' : ExprId → EvalM Value}
    (h : ∀ arg ∈ args, argument arg = argument' arg) :
    doc.evalCall argument enter env id target args =
      doc.evalCall argument' enter env id target args := by
  have hargs (names : List Name) :
      bindArguments argument env names args = bindArguments argument' env names args := by
    induction names generalizing env args with
    | nil => rfl
    | cons first names ih =>
      cases args with
      | nil => rfl
      | cons arg args =>
        have hrest (env : Environment) :=
          @ih env args fun x hx => h x (List.mem_cons_of_mem arg hx)
        simp only [bindArguments_cons, h arg List.mem_cons_self, hrest]
  simp only [evalCall, hargs]

/-- Any two heights above the rank evaluate alike. -/
theorem evalNode_eq_of_rank_lt (hacyclic : doc.Acyclic) {other : ℕ} (h : doc.rank id < height)
    (h' : doc.rank id < other) :
    doc.evalNode enter height env id = doc.evalNode enter other env id := by
  induction height generalizing id other with
  | zero => exact absurd h (Nat.not_lt_zero _)
  | succ height ih =>
    obtain ⟨other, rfl⟩ : ∃ less, other = less + 1 := ⟨other - 1, by omega⟩
    have hpart : ∀ part, doc.Child id part →
        doc.evalNode enter height env part = doc.evalNode enter other env part := by
      intro part hchild
      have hlt := rank_lt_of_child hchild (hacyclic id)
      exact ih (by omega) (by omega)
    cases hexpr : doc.exprs[id.index]? with
    | none =>
      have hle : doc.exprs.size ≤ id.index := Array.getElem?_eq_none_iff.1 hexpr
      rw [evalNode_of_size_le hle, evalNode_of_size_le hle]
    | some expr =>
      cases expr with
      | number x => rw [evalNode_of_number hexpr, evalNode_of_number hexpr]
      | binary op left right =>
        rw [evalNode_of_binary hexpr, evalNode_of_binary hexpr, hpart left (child_left hexpr),
          hpart right (child_right hexpr)]
      | call target args =>
        rw [evalNode_of_call hexpr, evalNode_of_call hexpr]
        exact evalCall_congr fun arg harg => hpart arg ⟨_, hexpr, harg⟩
      | error => rw [evalNode_of_error hexpr, evalNode_of_error hexpr]

/-- Bodies are entered with one frame less. -/
theorem exists_evalWithin_enter (doc : Document) (room : ℕ) :
    ∃ enter, doc.evalWithin room = doc.evalNode enter doc.height ∧
      ∀ less, room = less + 1 → enter = doc.evalWithin less := by
  cases room with
  | zero => exact ⟨_, rfl, nofun⟩
  | succ room =>
    refine ⟨doc.evalWithin room, rfl, ?_⟩
    rintro less ⟨⟩
    rfl

/-- The parts of an expression have one level less, which is enough for them. -/
theorem evalNode_part {part : ExprId} (hacyclic : doc.Acyclic) (hchild : doc.Child id part) :
    doc.evalNode enter doc.exprs.size env part = doc.evalNode enter doc.height env part := by
  have hlt := rank_lt_of_child hchild (hacyclic id)
  have hle := doc.rank_le_size id
  exact evalNode_eq_of_rank_lt hacyclic (by omega) (doc.rank_lt_height part)

theorem Calls.child {arg : ExprId} (h : doc.Calls env id function definition args)
    (harg : arg ∈ args) : doc.Child id arg := by
  obtain ⟨target, name, hexpr, -⟩ := h
  exact ⟨_, hexpr, harg⟩

/-! ### The recursion -/

theorem evalExpr_of_evalNode {action : EvalM Value}
    (h : ∀ enter, doc.evalNode enter doc.height env id = action) :
    doc.evalExpr env id = action := by
  funext stack
  obtain ⟨enter, heq⟩ := doc.exists_evalWithin_eq stack.room
  show doc.evalWithin stack.room env id stack = _
  rw [heq, h enter]

theorem evalExpr_of_number {x : Binary64} (h : doc.exprs[id.index]? = some (.number x)) :
    doc.evalExpr env id = pure (some x) :=
  evalExpr_of_evalNode fun _ => evalNode_of_number h

theorem evalExpr_of_error (h : doc.exprs[id.index]? = some .error) :
    doc.evalExpr env id = pure none :=
  evalExpr_of_evalNode fun _ => evalNode_of_error h

theorem evalExpr_of_unlinked (h : doc.exprs[id.index]? = some (.call target args))
    (hname : target.bind doc.targetName? = none) :
    doc.evalExpr env id = throw (.error (.unlinkedReference id)) :=
  evalExpr_of_evalNode fun _ => evalNode_of_unlinked h hname

theorem evalExpr_of_unbound (h : doc.exprs[id.index]? = some (.call target args))
    (hname : target.bind doc.targetName? = some name) (hb : env.lookup name = none) :
    doc.evalExpr env id = pure none :=
  evalExpr_of_evalNode fun _ => evalNode_of_unbound h hname hb

theorem evalExpr_of_arity (h : doc.Calls env id function definition args)
    (harity : definition.arity ≠ args.length) :
    doc.evalExpr env id =
      throw (.error (.arityMismatch (doc.text definition.name) function id definition.arity
        args.length)) :=
  evalExpr_of_evalNode fun _ => evalNode_of_arity h harity

/-- **Operators.** The operands are evaluated from left to right, on the same stack. -/
theorem evalExpr_of_binary {op : Operator} {left right : ExprId} (hacyclic : doc.Acyclic)
    (h : doc.exprs[id.index]? = some (.binary op left right)) :
    doc.evalExpr env id = (do
      let x ← doc.evalExpr env left
      let y ← doc.evalExpr env right
      return Value.operate op x y) := by
  funext stack
  obtain ⟨enter, heq⟩ := doc.exists_evalWithin_eq stack.room
  have hpart : ∀ part, doc.Child id part →
      doc.evalExpr env part stack = doc.evalNode enter doc.exprs.size env part stack := by
    intro part hchild
    show doc.evalWithin stack.room env part stack = _
    rw [heq, evalNode_part hacyclic hchild]
  show doc.evalWithin stack.room env id stack = _
  rw [heq, height, evalNode_of_binary h]
  symm
  apply EvalM.bind_congr (doc.evalExpr_ends env left stack) (hpart left (child_left h))
  intro x
  apply EvalM.bind_congr (doc.evalExpr_ends env right stack) (hpart right (child_right h))
  intro y
  rfl

/-- **Calls.** The arguments are evaluated from left to right, and then the body in a frame of its
own. -/
theorem evalExpr_of_calls (hacyclic : doc.Acyclic) (h : doc.Calls env id function definition args)
    (harity : definition.arity = args.length) :
    doc.evalExpr env id = (do
      let values ← args.mapM (doc.evalExpr env)
      EvalM.inFrame doc { definition := function, call := id }
        (doc.evalExpr (env.bindAll definition.params values) definition.body)) := by
  funext stack
  obtain ⟨enter, heq, henter⟩ := doc.exists_evalWithin_enter stack.room
  have hargs : ∀ arg ∈ args,
      doc.evalExpr env arg stack = doc.evalNode enter doc.exprs.size env arg stack := by
    intro arg harg
    show doc.evalWithin stack.room env arg stack = _
    rw [heq, evalNode_part hacyclic (h.child harg)]
  show doc.evalWithin stack.room env id stack = _
  rw [heq, height, evalNode_of_calls h harity]
  symm
  have hends : ∀ arg ∈ args,
      (doc.evalExpr env arg).Ends (fun _ => True) Contract.anything.stop stack :=
    fun arg _ => doc.evalExpr_ends env arg stack
  apply EvalM.bind_congr (EvalM.ends_mapM hends) (EvalM.mapM_congr hends hargs)
  intro values
  apply EvalM.inFrame_congr
  intro inner hpush
  rw [henter inner.room (CallStack.room_of_push hpush)]
  rfl

end Document

end Reckon
