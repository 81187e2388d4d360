import Reckon.Proofs.CallRanks
import Reckon.Proofs.Folding
import Reckon.Proofs.Recursion

/-!
# Functions that call themselves

An expression has no branches: whatever is an operand is evaluated. So a function that calls itself
among the operands of its body can never come back. Each frame leads to another one, until the stack
is full or something else goes wrong first.

* `EvalM.Stops`: an action comes to no value.
* `OperatorTree.stops`: what stops an operand stops everything above it.
* `Document.CallsItself`: a function calls itself, and no parameter hides its name.
* `CallsItself.stops_of_inner`, `CallsItself.stops`: a call stops if the calls in the next frame do,
  and so all calls stop, by induction on the room of the stack.
* `call_of_callsItself`: what this means in a well-formed document.
-/

namespace Reckon

namespace EvalM

variable {α β : Type} {stack : CallStack}

/-- An action comes to no value, and leaves the stack as it was. -/
def Stops (action : EvalM α) (stack : CallStack) : Prop :=
  action.Ends (fun _ => False) (fun _ => True) stack

theorem Stops.bind {action : EvalM α} (h : action.Stops stack) (next : α → EvalM β) :
    (action >>= next).Stops stack :=
  Ends.bind h fun _ ha => ha.elim

theorem stops_bind {values : α → Prop} {action : EvalM α} {next : α → EvalM β}
    (h : action.Ends values (fun _ => True) stack) (hnext : ∀ a, (next a).Stops stack) :
    (action >>= next).Stops stack :=
  h.bind fun a _ => hnext a

/-- What comes to no value and is answered ends with an error. -/
theorem Stops.exists_error {action : EvalM α} (h : action.Stops stack) (ha : action.Answers stack) :
    ∃ error, action stack = .error (.error error) stack := by
  rcases ha with ⟨a, ha⟩ | herror
  · rcases h with ⟨_, _, hfalse⟩ | ⟨stop, hstop, -⟩
    · exact hfalse.elim
    · rw [ha] at hstop
      cases hstop
  · exact herror

end EvalM

/-- A name that is not among those bound anew keeps its binding. -/
theorem Environment.lookup_bindAll_of_notMem {name : Name} {names : List Name} (h : name ∉ names)
    (env : Environment) (values : List Value) :
    (env.bindAll names values).lookup name = env.lookup name := by
  induction names generalizing env values with
  | nil => rfl
  | cons first names ih =>
    cases values with
    | nil => rfl
    | cons value values =>
      have hfirst : first ≠ name := fun heq => h (heq ▸ List.mem_cons_self)
      have hrest : name ∉ names := fun hmem => h (List.mem_cons_of_mem first hmem)
      show ((env.define first (.value value)).bindAll names values).lookup name = _
      rw [ih hrest, lookup_define, if_neg hfirst]

namespace Document

variable {doc : Document} {env : Environment} {id node call : ExprId} {stack : CallStack}
  {function : DefId} {definition : Definition} {name : Name}

/-! ### Operands -/

/-- What stops an operand stops everything above it. -/
theorem OperatorTree.stops (h : doc.OperatorTree id node) (hacyclic : doc.Acyclic)
    (hnode : (doc.evalExpr env node).Stops stack) : (doc.evalExpr env id).Stops stack := by
  induction h with
  | root => exact hnode
  | left h _ ih =>
    rw [evalExpr_of_binary hacyclic h]
    exact (ih hnode).bind _
  | right h _ ih =>
    rw [evalExpr_of_binary hacyclic h]
    apply EvalM.stops_bind (doc.evalExpr_ends env _ stack)
    intro x
    exact (ih hnode).bind _

theorem calledName?_eq_some :
    doc.calledName? id = some name ↔
      ∃ target args, doc.exprs[id.index]? = some (.call target args) ∧
        target.bind doc.targetName? = some name := by
  unfold calledName?
  split
  · rename_i target args hexpr
    simp [hexpr]
  · rename_i hother
    refine ⟨nofun, ?_⟩
    rintro ⟨target, args, hexpr, -⟩
    exact (hother target args hexpr).elim

/-! ### Self-calls -/

/-- Among the operands of its body the function has a call that goes by its own name, and none of
its parameters has this name. -/
structure CallsItself (doc : Document) (function : DefId) (definition : Definition) : Prop where
  definition_eq : doc.definitions[function.index]? = some definition
  name_notMem : definition.name ∉ definition.params
  exists_call : ∃ call, doc.OperatorTree definition.body call ∧
    doc.calledName? call = some definition.name

/-- Calls of the function stop on this stack, wherever its name stands for it. -/
def Refuses (doc : Document) (function : DefId) (definition : Definition) (stack : CallStack) :
    Prop :=
  ∀ (env : Environment) (call : ExprId), env.lookup definition.name = some (.function function) →
    doc.calledName? call = some definition.name → (doc.evalExpr env call).Stops stack

/-- One frame: the body makes a call again, in an environment where the name still stands for the
function. -/
theorem CallsItself.stops_of_inner (h : doc.CallsItself function definition)
    (hacyclic : doc.Acyclic) (hinner : ∀ inner : CallStack, inner.room + 1 = stack.room →
      doc.Refuses function definition inner) :
    doc.Refuses function definition stack := by
  intro env call hb hcall
  obtain ⟨target, args, hexpr, hname⟩ := calledName?_eq_some.1 hcall
  have hcalls : doc.Calls env call function definition args :=
    ⟨target, _, hexpr, hname, hb, h.definition_eq⟩
  by_cases harity : definition.arity = args.length
  · rw [evalExpr_of_calls hacyclic hcalls harity]
    apply EvalM.stops_bind (EvalM.ends_mapM fun arg _ => doc.evalExpr_ends env arg stack)
    intro values
    apply EvalM.ends_inFrame h.definition_eq trivial
    intro inner _ hroom
    obtain ⟨again, htree, hagain⟩ := h.exists_call
    apply htree.stops hacyclic
    apply hinner inner hroom _ again _ hagain
    rw [Environment.lookup_bindAll_of_notMem h.name_notMem, hb]
  · rw [evalExpr_of_arity hcalls harity]
    exact EvalM.ends_throw trivial

/-- All frames. A stack without room refuses the first of them. -/
theorem CallsItself.stops (h : doc.CallsItself function definition) (hacyclic : doc.Acyclic)
    (stack : CallStack) : doc.Refuses function definition stack := by
  induction hroom : stack.room generalizing stack with
  | zero =>
    apply h.stops_of_inner hacyclic
    intro inner hinner
    omega
  | succ room ih =>
    apply h.stops_of_inner hacyclic
    intro inner hinner
    exact ih inner (by omega)

/-- **A function that calls itself never comes to a value.** In a well-formed document let a
function have, at its body or reached from there through operands, a call that goes by the
function's own name, and no parameter of this name. Then every call that goes by this name ends with
an error, wherever the name stands for the function, whatever the arguments, and on every stack. -/
theorem call_of_callsItself (h : doc.WellFormed) (hself : doc.CallsItself function definition)
    (hcall : doc.calledName? call = some definition.name)
    (hb : env.lookup definition.name = some (.function function)) (hk : env.Known doc)
    (stack : CallStack) : ∃ error, doc.evalExpr env call stack = .error (.error error) stack := by
  obtain ⟨target, args, hexpr, -⟩ := calledName?_eq_some.1 hcall
  have hlt : call.index < doc.exprs.size := (Array.getElem?_eq_some_iff.1 hexpr).1
  have hstops := hself.stops h.acyclic stack env call hb hcall
  exact hstops.exists_error (evalExpr_answers h hk hlt stack)

/-- The body of `f` is `x + f (x)`, and there are the calls `f (2)` and `f ()`. -/
def endlessSum : Document where
  exprs := #[.call (some (.parameter ⟨0⟩ 0)) [], .call (some (.definition ⟨0⟩)) [⟨0⟩],
    .binary .add ⟨0⟩ ⟨1⟩, .number ⟨0x4000000000000000⟩, .call (some (.definition ⟨0⟩)) [⟨3⟩],
    .call (some (.definition ⟨0⟩)) []]
  definitions := #[{ name := ⟨1⟩, params := [⟨2⟩], body := ⟨2⟩ }]
  statements := #[.definition ⟨0⟩]

/-- Both calls end with an error under every limit. Under a limit of three the first of them has
opened three frames. -/
theorem endlessSum_fails :
    endlessSum.WellFormed ∧
      endlessSum.CallsItself ⟨0⟩ { name := ⟨1⟩, params := [⟨2⟩], body := ⟨2⟩ } ∧
      (Environment.empty.define ⟨1⟩ (.function ⟨0⟩)).Known endlessSum ∧
      (∀ call ∈ ([⟨4⟩, ⟨5⟩] : List ExprId), ∀ limit, ∃ error,
        endlessSum.evalExpr (Environment.empty.define ⟨1⟩ (.function ⟨0⟩)) call (.new limit) =
          .error (.error error) (.new limit)) ∧
      endlessSum.evalExpr (Environment.empty.define ⟨1⟩ (.function ⟨0⟩)) ⟨4⟩ (.new 3) =
        .error (.error (.recursionLimit "" ⟨1⟩ 3)) (.new 3) := by
  have hw : endlessSum.WellFormed :=
    wellFormed_of_earlier (by decide) (by decide) (by decide) (by decide)
  have hself : endlessSum.CallsItself ⟨0⟩ { name := ⟨1⟩, params := [⟨2⟩], body := ⟨2⟩ } :=
    ⟨rfl, by decide, ⟨1⟩, .right rfl .root, rfl⟩
  have hk : (Environment.empty.define ⟨1⟩ (.function ⟨0⟩)).Known endlessSum := by
    apply (Environment.known_empty endlessSum).define
    intro id hid
    cases hid
    decide
  refine ⟨hw, hself, hk, ?_, rfl⟩
  intro call hmem limit
  have hcall : endlessSum.calledName? call = some ⟨1⟩ := by
    revert call
    decide
  exact call_of_callsItself hw hself hcall (Environment.lookup_define_self _ _ _) hk (.new limit)

end Document

end Reckon
