import Reckon.Proofs.Statements

/-!
# Two evaluations side by side

To compare two evaluations is the same argument each time: at expressions that correspond both meet
nodes of the same kind, hand on to parts that correspond, and look up names that stand for the same or
for functions whose bodies correspond. This file makes the argument for all such comparisons together.
The documents, the environments and the limits on the depth of calls may all differ.

* `Outcome.Agree`: the same value, or errors that correspond.
* `Simulation`: which environments, expressions and errors correspond, and which errors of the first
  evaluation put an end to the comparison.
* `Simulation.Alike`: two actions come to the same value or to errors that correspond. This goes
  through sequences, lists and frames.
* `Simulation.Meets`: what evaluation meets at two expressions. `Simulation.Sound` says that this is so
  wherever environments and expressions correspond.
* `Simulation.Sound.evalExpr`: evaluations of expressions that correspond are alike. If nothing is
  excused, they come to outcomes that agree (`Simulation.Sound.exists_yields`).
* `Document.SameCode`, `Yields.of_sameCode`: a comparison where expressions and definitions are the
  same. Only the limit may differ, and then only an error about it can tell.
-/

namespace Reckon

/-! ### Outcomes that agree -/

/-- The same value, or errors that correspond. -/
inductive Outcome.Agree (error : EvalError → EvalError → Prop) : Outcome → Outcome → Prop
  | value (value : Value) : Agree error (.ok value) (.ok value)
  | error {failure failure' : EvalError} (h : error failure failure') :
      Agree error (.error failure) (.error failure')

namespace Outcome.Agree

variable {error : EvalError → EvalError → Prop} {outcome outcome' : Outcome}

theorem value_eq (h : Agree error outcome outcome') : outcome'.value = outcome.value := by
  cases h <;> rfl

/-- A policy goes on after both outcomes or after none of them. -/
theorem admits {policy : ErrorPolicy} (h : Agree error outcome outcome')
    (ha : policy.Admits outcome) : policy.Admits outcome' := by
  cases h with
  | value value => exact ha
  | error _ =>
    intro habort
    obtain ⟨value, hvalue⟩ := ha habort
    cases hvalue

theorem eq (h : Agree (fun failure failure' => failure' = failure) outcome outcome') :
    outcome' = outcome := by
  cases h with
  | value value => rfl
  | error h => rw [h]

end Outcome.Agree

/-! ### Simulations -/

/-- What corresponds to what in two evaluations. Of the errors, those that are excused say that the
first evaluation went no further and that nothing is claimed about the second one. -/
structure Simulation where
  env : Environment → Environment → Prop
  expr : ExprId → ExprId → Prop
  error : EvalError → EvalError → Prop
  excused : EvalError → Prop

namespace Simulation

variable {sim : Simulation} {doc doc' : Document} {limit limit' : ℕ} {stack stack' : CallStack}

/-! ### Actions that end alike -/

section Actions

variable {α β : Type} {action action' : EvalM α}

/-- Two actions end alike, and each leaves its stack as it was. -/
inductive Alike (sim : Simulation) (action action' : EvalM α) (stack stack' : CallStack) : Prop
  | value {a : α} (h : action stack = .ok a stack) (h' : action' stack' = .ok a stack')
  | error {error error' : EvalError} (h : action stack = .error (.error error) stack)
      (h' : action' stack' = .error (.error error') stack') (herror : sim.error error error')
  | excused {error : EvalError} (h : action stack = .error (.error error) stack)
      (hexcused : sim.excused error)

theorem alike_pure (a : α) : sim.Alike (pure a) (pure a) stack stack' :=
  .value rfl rfl

theorem alike_throw {error error' : EvalError} (h : sim.error error error') :
    sim.Alike (throw (.error error) : EvalM α) (throw (.error error')) stack stack' :=
  .error rfl rfl h

theorem Alike.bind {rest rest' : α → EvalM β} (h : sim.Alike action action' stack stack')
    (hrest : ∀ a, sim.Alike (rest a) (rest' a) stack stack') :
    sim.Alike (action >>= rest) (action' >>= rest') stack stack' := by
  cases h with
  | @value a h h' =>
    have hrun : (action >>= rest) stack = rest a stack := by
      simp only [Bind.bind, EStateM.bind, h]
    have hrun' : (action' >>= rest') stack' = rest' a stack' := by
      simp only [Bind.bind, EStateM.bind, h']
    cases hrest a with
    | value hr hr' => exact .value (hrun.trans hr) (hrun'.trans hr')
    | error hr hr' herror => exact .error (hrun.trans hr) (hrun'.trans hr') herror
    | excused hr hexcused => exact .excused (hrun.trans hr) hexcused
  | error h h' herror =>
    refine .error ?_ ?_ herror
    · simp only [Bind.bind, EStateM.bind, h]
    · simp only [Bind.bind, EStateM.bind, h']
  | excused h hexcused =>
    refine .excused ?_ hexcused
    simp only [Bind.bind, EStateM.bind, h]

theorem alike_mapM {γ : Type} {f f' : γ → EvalM β} {related : γ → γ → Prop} {list list' : List γ}
    (hlist : List.Forall₂ related list list')
    (h : ∀ a ∈ list, ∀ a' ∈ list', related a a' → sim.Alike (f a) (f' a') stack stack') :
    sim.Alike (list.mapM f) (list'.mapM f') stack stack' := by
  induction hlist with
  | nil => exact alike_pure []
  | @cons a a' list list' hrelated _ ih =>
    rw [List.mapM_cons, List.mapM_cons]
    apply (h a List.mem_cons_self a' List.mem_cons_self hrelated).bind
    intro b
    have hlist : sim.Alike (list.mapM f) (list'.mapM f') stack stack' :=
      ih fun x hx x' hx' => h x (List.mem_cons_of_mem a hx) x' (List.mem_cons_of_mem a' hx')
    apply hlist.bind
    intro bs
    exact alike_pure (b :: bs)

/-- Stacks with as many frames, below these limits. -/
structure Level (limit limit' : ℕ) (stack stack' : CallStack) : Prop where
  depth_eq : stack.depth = stack'.depth
  limit_eq : stack.limit = limit
  limit_eq' : stack'.limit = limit'

theorem Level.push {frame frame' : Frame} (h : Level limit limit' stack stack') :
    Level limit limit' { stack with frames := stack.frames.push frame }
      { stack' with frames := stack'.frames.push frame' } where
  depth_eq := by
    have hdepth := h.depth_eq
    simp only [CallStack.depth, Array.size_push] at hdepth ⊢
    rw [hdepth]
  limit_eq := h.limit_eq
  limit_eq' := h.limit_eq'

/-- A frame that the first stack has room for, the second one has room for as well. If the first one
refuses it, this is excused or both refuse it. -/
theorem alike_inFrame {frame frame' : Frame} {definition definition' : Definition}
    (hlevel : Level limit limit' stack stack') (hle : limit ≤ limit')
    (hd : doc.definitions[frame.definition.index]? = some definition)
    (hd' : doc'.definitions[frame'.definition.index]? = some definition')
    (hfull : sim.excused (.recursionLimit (doc.text definition.name) frame.call limit) ∨
      limit' ≤ limit ∧ sim.error (.recursionLimit (doc.text definition.name) frame.call limit)
        (.recursionLimit (doc'.text definition'.name) frame'.call limit'))
    (h : ∀ inner inner', Level limit limit' inner inner' → inner.room + 1 = stack.room →
      inner'.room + 1 = stack'.room → sim.Alike action action' inner inner') :
    sim.Alike (EvalM.inFrame doc frame action) (EvalM.inFrame doc' frame' action') stack stack' := by
  obtain ⟨hdepth, hlimit, hlimit'⟩ := hlevel
  by_cases hlt : stack.depth < stack.limit
  · have hpush := CallStack.push_of_lt doc frame hlt
    have hlt' : stack'.depth < stack'.limit := by omega
    have hpush' := CallStack.push_of_lt doc' frame' hlt'
    have hroom := (CallStack.room_of_push hpush).symm
    have hroom' := (CallStack.room_of_push hpush').symm
    have hpop := CallStack.pop_of_push hpush
    have hpop' := CallStack.pop_of_push hpush'
    cases h _ _ (Level.push ⟨hdepth, hlimit, hlimit'⟩) hroom hroom' with
    | @value a ha ha' =>
      have hrun : EvalM.inFrame doc frame action stack = .ok a stack := by
        simp only [EvalM.inFrame, hpush, ha, hpop]
      have hrun' : EvalM.inFrame doc' frame' action' stack' = .ok a stack' := by
        simp only [EvalM.inFrame, hpush', ha', hpop']
      exact .value hrun hrun'
    | error hs hs' herror =>
      refine .error ?_ ?_ herror
      · simp only [EvalM.inFrame, hpush, hs, hpop]
      · simp only [EvalM.inFrame, hpush', hs', hpop']
    | excused hs hexcused =>
      refine .excused ?_ hexcused
      simp only [EvalM.inFrame, hpush, hs, hpop]
  · have hrefused := CallStack.push_of_le hd (Nat.not_lt.1 hlt)
    rw [hlimit] at hrefused
    rcases hfull with hexcused | ⟨hge, herror⟩
    · refine .excused ?_ hexcused
      simp only [EvalM.inFrame, hrefused]
    · have hge' : stack'.limit ≤ stack'.depth := by omega
      have hrefused' := CallStack.push_of_le hd' hge'
      rw [hlimit'] at hrefused'
      refine .error ?_ ?_ herror
      · simp only [EvalM.inFrame, hrefused]
      · simp only [EvalM.inFrame, hrefused']

end Actions

/-! ### Expressions that correspond -/

/-- What evaluation meets at two expressions: nodes of the same kind, with parts that correspond. A
call is compared by what its name stands for. -/
inductive Meets (sim : Simulation) (doc doc' : Document) (limit limit' : ℕ)
    (env env' : Environment) (id id' : ExprId) : Prop
  | number (value : Binary64) (h : doc.exprs[id.index]? = some (.number value))
      (h' : doc'.exprs[id'.index]? = some (.number value))
  | unreadable (h : doc.exprs[id.index]? = some .error) (h' : doc'.exprs[id'.index]? = some .error)
  | binary (op : Operator) {left right left' right' : ExprId}
      (h : doc.exprs[id.index]? = some (.binary op left right))
      (h' : doc'.exprs[id'.index]? = some (.binary op left' right'))
      (hleft : sim.expr left left') (hright : sim.expr right right')
  | unlinked {target target' : Option CallTarget} {args args' : List ExprId}
      (h : doc.exprs[id.index]? = some (.call target args))
      (h' : doc'.exprs[id'.index]? = some (.call target' args'))
      (hname : target.bind doc.targetName? = none) (hname' : target'.bind doc'.targetName? = none)
      (herror : sim.error (.unlinkedReference id) (.unlinkedReference id'))
  | bound {target target' : Option CallTarget} {args args' : List ExprId} {name name' : Name}
      (h : doc.exprs[id.index]? = some (.call target args))
      (h' : doc'.exprs[id'.index]? = some (.call target' args'))
      (hname : target.bind doc.targetName? = some name)
      (hname' : target'.bind doc'.targetName? = some name')
      (hb : env.lookup name = env'.lookup name')
      (hvalue : ∀ function, env.lookup name ≠ some (.function function))
  | function {function function' : DefId} {definition definition' : Definition}
      {args args' : List ExprId} (h : doc.Calls env id function definition args)
      (h' : doc'.Calls env' id' function' definition' args')
      (hargs : List.Forall₂ sim.expr args args') (harity : definition.arity = definition'.arity)
      (hbody : sim.expr definition.body definition'.body)
      (henv : ∀ values, sim.env (env.bindAll definition.params values)
        (env'.bindAll definition'.params values))
      (hmismatch : definition.arity ≠ args.length →
        sim.error (.arityMismatch (doc.text definition.name) function id definition.arity args.length)
          (.arityMismatch (doc'.text definition'.name) function' id' definition'.arity args'.length))
      (hfull : sim.excused (.recursionLimit (doc.text definition.name) id limit) ∨
        limit' ≤ limit ∧ sim.error (.recursionLimit (doc.text definition.name) id limit)
          (.recursionLimit (doc'.text definition'.name) id' limit'))

/-- Wherever environments and expressions correspond, evaluation meets the same. The first limit is
the smaller one. -/
structure Sound (sim : Simulation) (doc doc' : Document) (limit limit' : ℕ) : Prop where
  acyclic : doc.Acyclic
  acyclic' : doc'.Acyclic
  limit_le : limit ≤ limit'
  meets : ∀ {env env' : Environment} {id id' : ExprId}, sim.env env env' → sim.expr id id' →
    sim.Meets doc doc' limit limit' env env' id id'

variable {env env' : Environment} {id id' : ExprId} {height height' room room' : ℕ}
  {enter enter' : Environment → ExprId → EvalM Value}

/-- Two calls meet the same if their names correspond and stand for the same. Where this is a function,
there is more to say. -/
theorem meets_of_call {rename : Name → Name} {target target' : Option CallTarget}
    {args args' : List ExprId} (hk : env.Known doc)
    (hexpr : doc.exprs[id.index]? = some (.call target args))
    (hexpr' : doc'.exprs[id'.index]? = some (.call target' args'))
    (hnames : target'.bind doc'.targetName? = (target.bind doc.targetName?).map rename)
    (hlookup : ∀ name, target.bind doc.targetName? = some name →
      env'.lookup (rename name) = env.lookup name)
    (herror : sim.error (.unlinkedReference id) (.unlinkedReference id'))
    (hfunction : ∀ {function : DefId} {definition : Definition},
      doc.Calls env id function definition args →
      (∀ {definition' : Definition}, doc'.definitions[function.index]? = some definition' →
        doc'.Calls env' id' function definition' args') →
      sim.Meets doc doc' limit limit' env env' id id') :
    sim.Meets doc doc' limit limit' env env' id id' := by
  obtain hname | ⟨name, hname, hb | ⟨value, hb⟩ | ⟨function, hb, hd | ⟨definition, hcalls⟩⟩⟩ :=
    Document.call_cases env hexpr <;> rw [hname] at hnames
  · exact .unlinked hexpr hexpr' hname hnames herror
  · exact .bound hexpr hexpr' hname hnames (hlookup name hname).symm (by simp [hb])
  · exact .bound hexpr hexpr' hname hnames (hlookup name hname).symm (by simp [hb])
  · exact absurd (hk name function hb) (Nat.not_lt.2 hd)
  · apply hfunction hcalls
    intro definition' hd'
    exact ⟨target', rename name, hexpr', hnames, (hlookup name hname).trans hb, hd'⟩

/-- Bodies that correspond are alike wherever a frame can be opened on both stacks. -/
def Enters (sim : Simulation) (limit limit' : ℕ) (enter enter' : Environment → ExprId → EvalM Value)
    (stack stack' : CallStack) : Prop :=
  ∀ (env env' : Environment) (body body' : ExprId) (inner inner' : CallStack), sim.env env env' →
    sim.expr body body' → Level limit limit' inner inner' → inner.room + 1 = stack.room →
    inner'.room + 1 = stack'.room → sim.Alike (enter env body) (enter' env' body') inner inner'

theorem Sound.evalNode_of_calls {function function' : DefId} {definition definition' : Definition}
    {args args' : List ExprId} (h : sim.Sound doc doc' limit limit')
    (hlevel : Level limit limit' stack stack') (hcalls : doc.Calls env id function definition args)
    (hcalls' : doc'.Calls env' id' function' definition' args')
    (hbody : sim.expr definition.body definition'.body)
    (henv : ∀ values, sim.env (env.bindAll definition.params values)
      (env'.bindAll definition'.params values))
    (harity : definition.arity = args.length) (harity' : definition'.arity = args'.length)
    (hfull : sim.excused (.recursionLimit (doc.text definition.name) id limit) ∨
      limit' ≤ limit ∧ sim.error (.recursionLimit (doc.text definition.name) id limit)
        (.recursionLimit (doc'.text definition'.name) id' limit'))
    (hargs : sim.Alike (args.mapM (doc.evalNode enter height env))
      (args'.mapM (doc'.evalNode enter' height' env')) stack stack')
    (henter : sim.Enters limit limit' enter enter' stack stack') :
    sim.Alike (doc.evalNode enter (height + 1) env id) (doc'.evalNode enter' (height' + 1) env' id')
      stack stack' := by
  rw [Document.evalNode_of_calls hcalls harity, Document.evalNode_of_calls hcalls' harity']
  apply hargs.bind
  intro values
  apply alike_inFrame hlevel h.limit_le hcalls.definition_eq hcalls'.definition_eq hfull
  intro inner inner' hinner hroom hroom'
  exact henter _ _ _ _ inner inner' (henv values) hbody hinner hroom hroom'

/-- Within one frame. -/
theorem Sound.evalNode (h : sim.Sound doc doc' limit limit') (henv : sim.env env env')
    (hid : sim.expr id id') (hlevel : Level limit limit' stack stack')
    (henter : sim.Enters limit limit' enter enter' stack stack')
    (hrank : doc.rank id < height) (hrank' : doc'.rank id' < height') :
    sim.Alike (doc.evalNode enter height env id) (doc'.evalNode enter' height' env' id')
      stack stack' := by
  induction height generalizing height' id id' with
  | zero => exact absurd hrank (Nat.not_lt_zero _)
  | succ height ih =>
    obtain ⟨height', rfl⟩ : ∃ k, height' = k + 1 := ⟨height' - 1, by omega⟩
    have hpart : ∀ part part', doc.Child id part → doc'.Child id' part' → sim.expr part part' →
        sim.Alike (doc.evalNode enter height env part) (doc'.evalNode enter' height' env' part')
          stack stack' := by
      intro part part' hc hc' hrelated
      have hlt := Document.rank_lt_of_child hc (h.acyclic id)
      have hlt' := Document.rank_lt_of_child hc' (h.acyclic' id')
      exact ih hrelated (by omega) (by omega)
    cases h.meets henv hid with
    | number value hexpr hexpr' =>
      rw [Document.evalNode_of_number hexpr, Document.evalNode_of_number hexpr']
      exact alike_pure _
    | unreadable hexpr hexpr' =>
      rw [Document.evalNode_of_error hexpr, Document.evalNode_of_error hexpr']
      exact alike_pure _
    | binary op hexpr hexpr' hleft hright =>
      rw [Document.evalNode_of_binary hexpr, Document.evalNode_of_binary hexpr']
      apply (hpart _ _ (Document.child_left hexpr) (Document.child_left hexpr') hleft).bind
      intro x
      apply (hpart _ _ (Document.child_right hexpr) (Document.child_right hexpr') hright).bind
      intro y
      exact alike_pure _
    | unlinked hexpr hexpr' hname hname' herror =>
      rw [Document.evalNode_of_unlinked hexpr hname, Document.evalNode_of_unlinked hexpr' hname']
      exact alike_throw herror
    | bound hexpr hexpr' hname hname' hb hvalue =>
      cases hlookup : env.lookup _ with
      | none =>
        rw [Document.evalNode_of_unbound hexpr hname hlookup,
          Document.evalNode_of_unbound hexpr' hname' (hb.symm.trans hlookup)]
        exact alike_pure _
      | some binding =>
        cases binding with
        | function function => exact absurd hlookup (hvalue function)
        | value value =>
          rw [Document.evalNode_of_value hexpr hname hlookup,
            Document.evalNode_of_value hexpr' hname' (hb.symm.trans hlookup)]
          exact alike_pure _
    | @function f f' definition definition' args args' hcalls hcalls' hargs harity hbody hbind
        hmismatch hfull =>
      have hlength : args.length = args'.length := hargs.length_eq
      by_cases hcount : definition.arity = args.length
      · apply h.evalNode_of_calls hlevel hcalls hcalls' hbody hbind hcount (by omega) hfull _ henter
        obtain ⟨target, name, hexpr, -⟩ := hcalls
        obtain ⟨target', name', hexpr', -⟩ := hcalls'
        apply alike_mapM hargs
        intro arg harg arg' harg' hrelated
        exact hpart arg arg' ⟨_, hexpr, harg⟩ ⟨_, hexpr', harg'⟩ hrelated
      · rw [Document.evalNode_of_arity hcalls hcount,
          Document.evalNode_of_arity hcalls' (by omega)]
        exact alike_throw (hmismatch hcount)

theorem Sound.evalWithin (h : sim.Sound doc doc' limit limit') (henv : sim.env env env')
    (hid : sim.expr id id') (hlevel : Level limit limit' stack stack')
    (hroom : stack.room ≤ room) (hroom' : stack'.room ≤ room') :
    sim.Alike (doc.evalWithin room env id) (doc'.evalWithin room' env' id') stack stack' := by
  induction room generalizing room' env env' id id' stack stack' with
  | zero =>
    obtain ⟨enter', henter'⟩ := doc'.exists_evalWithin_eq room'
    rw [henter']
    apply h.evalNode henv hid hlevel _ (doc.rank_lt_height id) (doc'.rank_lt_height id')
    -- no frame fits on the first stack, so that no body is entered
    intro _ _ _ _ inner inner' _ _ _ hinner _
    omega
  | succ room ih =>
    cases room' with
    | zero =>
      apply h.evalNode henv hid hlevel _ (doc.rank_lt_height id) (doc'.rank_lt_height id')
      intro _ _ _ _ inner inner' _ _ _ _ hinner'
      omega
    | succ room' =>
      apply h.evalNode henv hid hlevel _ (doc.rank_lt_height id) (doc'.rank_lt_height id')
      intro env env' body body' inner inner' henv hbody hinner hr hr'
      exact ih henv hbody hinner (by omega) (by omega)

/-- **Evaluations of expressions that correspond are alike.** -/
theorem Sound.evalExpr (h : sim.Sound doc doc' limit limit') (henv : sim.env env env')
    (hid : sim.expr id id') (hlevel : Level limit limit' stack stack') :
    sim.Alike (doc.evalExpr env id) (doc'.evalExpr env' id') stack stack' := by
  cases h.evalWithin henv hid hlevel (Nat.le_refl stack.room) (Nat.le_refl stack'.room) with
  | value ha ha' => exact .value ha ha'
  | error hs hs' herror => exact .error hs hs' herror
  | excused hs hexcused => exact .excused hs hexcused

/-- If nothing is excused, the outcomes agree. -/
theorem Sound.exists_yields {outcome : Outcome} (h : sim.Sound doc doc' limit limit')
    (hexcused : ∀ error, ¬ sim.excused error) (henv : sim.env env env') (hid : sim.expr id id')
    (hlevel : Level limit limit' stack stack') (hy : doc.Yields stack env id outcome) :
    ∃ outcome', doc'.Yields stack' env' id' outcome' ∧ outcome.Agree sim.error outcome' := by
  cases h.evalExpr henv hid hlevel with
  | @value value ha ha' =>
    rw [hy.unique (Document.yields_ok ha)]
    exact ⟨.ok value, Document.yields_ok ha', .value value⟩
  | @error error error' hs hs' herror =>
    rw [hy.unique (Document.yields_error hs)]
    exact ⟨.error error', Document.yields_error hs', .error herror⟩
  | @excused error _ herror => exact absurd herror (hexcused error)

end Simulation

/-! ### The same code -/

/-- The call was nested too deeply. -/
def EvalError.IsRecursionLimit : EvalError → Prop
  | .recursionLimit .. => True
  | .arityMismatch .. | .unlinkedReference _ => False

namespace Document

variable {doc doc' : Document} {env : Environment} {id : ExprId} {stack stack' : CallStack}
  {limit limit' : ℕ} {outcome : Outcome} {statement : Statement}

/-- Expressions, definitions and names are the same. Statements and evaluations may differ. -/
structure SameCode (doc doc' : Document) : Prop where
  interner_eq : doc'.interner = doc.interner
  exprs_eq : doc'.exprs = doc.exprs
  definitions_eq : doc'.definitions = doc.definitions

theorem SameCode.refl (doc : Document) : doc.SameCode doc :=
  ⟨rfl, rfl, rfl⟩

theorem SameCode.targetName?_eq (h : doc.SameCode doc') : doc'.targetName? = doc.targetName? := by
  funext target
  cases target <;> simp only [targetName?, definition?, h.definitions_eq]

theorem SameCode.text_eq (h : doc.SameCode doc') (name : Name) : doc'.text name = doc.text name := by
  rw [text, text, h.interner_eq]

theorem SameCode.acyclic (h : doc.SameCode doc') (hacyclic : doc.Acyclic) : doc'.Acyclic :=
  hacyclic.of_exprs_eq h.exprs_eq

theorem SameCode.calls {function : DefId} {definition : Definition} {args : List ExprId}
    (h : doc.SameCode doc') (hcalls : doc.Calls env id function definition args) :
    doc'.Calls env id function definition args := by
  rwa [Calls, h.exprs_eq, h.definitions_eq, h.targetName?_eq]

theorem SameCode.settle_eq (h : doc.SameCode doc') (pass : Pass) (statement : Statement)
    (outcome : Outcome) : doc'.settle pass statement outcome = doc.settle pass statement outcome := by
  cases statement <;> simp only [settle, settleEnv, h.definitions_eq]

end Document

namespace Simulation

variable {doc doc' : Document} {limit limit' : ℕ}

/-- The same expressions in the same environments. Where the second limit is really greater, an error
about the first one is excused. -/
def sameCode (doc : Document) (limit limit' : ℕ) : Simulation where
  env := fun env env' => env' = env ∧ env.Known doc
  expr := fun id id' => id' = id ∧ id.index < doc.exprs.size
  error := fun error error' => error' = error
  excused := fun error => limit < limit' ∧ error.IsRecursionLimit

theorem forall₂_sameCode {args : List ExprId} (h : ∀ arg ∈ args, arg.index < doc.exprs.size) :
    List.Forall₂ (sameCode doc limit limit').expr args args := by
  rw [List.forall₂_same]
  exact fun arg harg => ⟨rfl, h arg harg⟩

theorem meets_sameCode (h : doc.WellFormed) (hsame : doc.SameCode doc') (hle : limit ≤ limit')
    {env : Environment} {id : ExprId} (hk : env.Known doc) (hid : id.index < doc.exprs.size) :
    (sameCode doc limit limit').Meets doc doc' limit limit' env env id id := by
  have hexprs : ∀ {expr : Expr}, doc.exprs[id.index]? = some expr →
      doc'.exprs[id.index]? = some expr := by
    intro expr hexpr
    rwa [hsame.exprs_eq]
  have hpart : ∀ {part : ExprId}, doc.Child id part → part.index < doc.exprs.size :=
    fun hc => h.child_lt hc
  cases hexpr : doc.exprs[id.index]? with
  | none => exact absurd hid (Nat.not_lt.2 (Array.getElem?_eq_none_iff.1 hexpr))
  | some expr =>
    cases expr with
    | number value => exact .number value hexpr (hexprs hexpr)
    | error => exact .unreadable hexpr (hexprs hexpr)
    | binary op left right =>
      exact .binary op hexpr (hexprs hexpr) ⟨rfl, hpart (Document.child_left hexpr)⟩
        ⟨rfl, hpart (Document.child_right hexpr)⟩
    | call target args =>
      have hnames : target.bind doc'.targetName? =
          (target.bind doc.targetName?).map fun name => name := by
        rw [hsame.targetName?_eq, Option.map_id']
      apply meets_of_call hk hexpr (hexprs hexpr) hnames (fun _ _ => rfl) rfl
      intro function definition hcalls _
      have hroot : doc.IsRoot definition.body :=
        Or.inl ⟨definition, Array.mem_of_getElem? hcalls.definition_eq, rfl⟩
      refine .function hcalls (hsame.calls hcalls) (forall₂_sameCode ?_) rfl
        ⟨rfl, h.root_lt hroot⟩ (fun values => ⟨rfl, hk.bindAll _ values⟩) ?_ ?_
      · exact fun arg harg => hpart ⟨_, hexpr, harg⟩
      · intro _
        rw [hsame.text_eq]
        rfl
      · rw [hsame.text_eq]
        rcases Nat.lt_or_eq_of_le hle with hlt | rfl
        · exact Or.inl ⟨hlt, trivial⟩
        · exact Or.inr ⟨Nat.le_refl _, rfl⟩

theorem sound_sameCode (h : doc.WellFormed) (hsame : doc.SameCode doc') (hle : limit ≤ limit') :
    (sameCode doc limit limit').Sound doc doc' limit limit' where
  acyclic := h.acyclic
  acyclic' := hsame.acyclic h.acyclic
  limit_le := hle
  meets := by
    intro env env' id id' henv hid
    obtain ⟨rfl, hk⟩ := henv
    obtain ⟨rfl, hlt⟩ := hid
    exact meets_sameCode h hsame hle hk hlt

end Simulation

namespace Document

variable {doc doc' : Document} {env : Environment} {id : ExprId} {stack stack' : CallStack}
  {limit limit' : ℕ} {outcome : Outcome} {statement : Statement}

/-- **The same code comes to the same outcome** below a limit that is the same, or that is greater and
was not met. -/
theorem Yields.of_sameCode (hy : doc.Yields stack env id outcome) (h : doc.WellFormed)
    (hsame : doc.SameCode doc') (hk : env.Known doc) (hid : id.index < doc.exprs.size)
    (hlevel : Simulation.Level limit limit' stack stack') (hle : limit ≤ limit')
    (hlimit : limit = limit' ∨ ∀ error, outcome = .error error → ¬ error.IsRecursionLimit) :
    doc'.Yields stack' env id outcome := by
  cases (Simulation.sound_sameCode h hsame hle).evalExpr ⟨rfl, hk⟩ ⟨rfl, hid⟩ hlevel with
  | value ha ha' =>
    rw [hy.unique (yields_ok ha)]
    exact yields_ok ha'
  | error hs hs' herror =>
    cases herror
    rw [hy.unique (yields_error hs)]
    exact yields_error hs'
  | excused hs hexcused =>
    rcases hlimit with heq | hnot
    · exact absurd heq (Nat.ne_of_lt hexcused.1)
    · exact absurd hexcused.2 (hnot _ (hy.unique (yields_error hs)))

/-- The same for a statement. An evaluation has to be the same in both documents. -/
theorem Computes.of_sameCode (hc : doc.Computes stack env statement outcome) (h : doc.WellFormed)
    (hsame : doc.SameCode doc') (hk : env.Known doc)
    (hevaluation : ∀ number, statement = .evaluation number →
      doc'.evaluations[number.index]? = doc.evaluations[number.index]?)
    (hlevel : Simulation.Level limit limit' stack stack') (hle : limit ≤ limit')
    (hlimit : limit = limit' ∨ ∀ error, outcome = .error error → ¬ error.IsRecursionLimit) :
    doc'.Computes stack' env statement outcome := by
  cases hc with
  | function hd hf =>
    rw [← hsame.definitions_eq] at hd
    exact .function hd hf
  | assignment hd hf hy =>
    have hbody := h.root_lt (Or.inl ⟨_, Array.mem_of_getElem? hd, rfl⟩)
    rw [← hsame.definitions_eq] at hd
    exact .assignment hd hf (hy.of_sameCode h hsame hk hbody hlevel hle hlimit)
  | evaluation he hy =>
    have hexpr := h.root_lt (Or.inr ⟨_, Array.mem_of_getElem? he, rfl⟩)
    rw [← hevaluation _ rfl] at he
    exact .evaluation he (hy.of_sameCode h hsame hk hexpr hlevel hle hlimit)

end Document

end Reckon
