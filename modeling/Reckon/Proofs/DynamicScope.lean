import Reckon.Proofs.Moments
import Reckon.Proofs.Scope
import Reckon.Proofs.Termination

/-!
# Parameters of all callers

A body is evaluated in the environment of its caller with the parameters bound anew, so that the
parameters of all active calls pile up. This file shows that nothing else does: at every moment of a
statement, the environment is the one of the pass with values for such parameters, and the functions in
it are those of the pass.

* `Document.ActiveParameter`: a name is a parameter of a function with a frame on the stack.
* `Document.Overlays`: an environment is another one with values for active parameters. Entering a
  body keeps this (`Overlays.enter`), and so it holds at every moment (`handsOn_overlays`).
* `Runs.lastDefinition_of_function`: what a function in the environment of a pass goes back to.
* `Machine.Reaches.reaches_result`: all moments are on the way to the result.
* `environments_overlay_pass`: the shape of every environment that a statement meets.
-/

namespace Reckon

/-- Names that are bound after others. -/
theorem Environment.bindAll_append {names : List Name} {values : List Value}
    (h : names.length = values.length) (env : Environment) (more : List Name) (others : List Value) :
    env.bindAll (names ++ more) (values ++ others) = (env.bindAll names values).bindAll more others := by
  rw [bindAll, bindAll, bindAll, List.zip_append h, List.foldl_append]

namespace Machine

variable {doc : Document} {start machine : Machine} {result : EStateM.Result Stop CallStack Value}

theorem reaches_of_answers {env : Environment} {id : ExprId} {stack : CallStack}
    (h : (doc.evalExpr env id).Answers stack) :
    Reaches doc (.start env id stack) (.ofResult [] (doc.evalExpr env id stack)) := by
  apply performs_evalExpr
  rcases h with ⟨value, hvalue⟩ | ⟨error, herror⟩
  · simp [hvalue]
  · simp [herror]

/-- What a machine can reach is on the way to its result, as it moves in one way only. -/
theorem Reaches.reaches_result (h : Reaches doc start machine)
    (hresult : Reaches doc start (.ofResult [] result)) :
    Reaches doc machine (.ofResult [] result) := by
  have hunique : Relator.RightUnique (Moves doc) := fun _ _ _ hmove hother => hmove.unique hother
  rcases Relation.ReflTransGen.total_of_right_unique hunique h hresult with hafter | hbefore
  · exact hafter
  · rcases Relation.ReflTransGen.cases_head hbefore with heq | ⟨next, hmove, -⟩
    · rw [heq]
      exact .refl
    · exact absurd hmove (not_moves_ofResult result next)

end Machine

namespace Document

variable {doc : Document} {stack inner : CallStack} {base env : Environment} {name : Name}

/-! ### Active parameters -/

/-- The name is a parameter of a function that has a frame on the stack. -/
def ActiveParameter (doc : Document) (stack : CallStack) (name : Name) : Prop :=
  ∃ frame ∈ stack.frames, ∃ definition,
    doc.definitions[frame.definition.index]? = some definition ∧ name ∈ definition.params

/-- `env` is `base` with values for some names, all of them active parameters. -/
def Overlays (doc : Document) (stack : CallStack) (base env : Environment) : Prop :=
  ∃ names values, names.length = values.length ∧ env = base.bindAll names values ∧
    ∀ name ∈ names, doc.ActiveParameter stack name

theorem overlays_self (doc : Document) (stack : CallStack) (env : Environment) :
    doc.Overlays stack env env :=
  ⟨[], [], rfl, rfl, by simp⟩

theorem ActiveParameter.push {frame : Frame} (h : doc.ActiveParameter stack name)
    (hpush : CallStack.push doc frame stack = .ok () inner) : doc.ActiveParameter inner name := by
  obtain ⟨-, rfl⟩ := CallStack.push_eq_ok.1 hpush
  obtain ⟨active, hactive, definition, hd, hparam⟩ := h
  exact ⟨active, Array.mem_push_of_mem frame hactive, definition, hd, hparam⟩

theorem activeParameter_of_push {frame : Frame} {definition : Definition}
    (hd : doc.definitions[frame.definition.index]? = some definition)
    (hparam : name ∈ definition.params) (hpush : CallStack.push doc frame stack = .ok () inner) :
    doc.ActiveParameter inner name := by
  obtain ⟨-, rfl⟩ := CallStack.push_eq_ok.1 hpush
  exact ⟨frame, Array.mem_push_self, definition, hd, hparam⟩

/-- The parameters of a body come on top of those of its callers. -/
theorem Overlays.enter {frame : Frame} {definition : Definition} {values : List Value}
    (h : doc.Overlays stack base env)
    (hd : doc.definitions[frame.definition.index]? = some definition)
    (hlength : definition.params.length = values.length)
    (hpush : CallStack.push doc frame stack = .ok () inner) :
    doc.Overlays inner base (env.bindAll definition.params values) := by
  obtain ⟨names, earlier, hnames, rfl, hactive⟩ := h
  refine ⟨names ++ definition.params, earlier ++ values, by simp [hnames, hlength], ?_, ?_⟩
  · rw [Environment.bindAll_append hnames]
  · intro name hmem
    rcases List.mem_append.1 hmem with hname | hparam
    · exact (hactive name hname).push hpush
    · exact activeParameter_of_push hd hparam hpush

/-- Arguments are evaluated in the environment of the call, and a body where its parameters are bound. -/
theorem handsOn_overlays (doc : Document) (base : Environment) :
    doc.HandsOn fun stack env _ => doc.Overlays stack base env where
  part := fun h _ => h
  body := by
    intro stack inner env call function definition args values h hcalls harity hlength hpush
    exact h.enter hcalls.definition_eq (harity.trans hlength.symm) hpush

/-- Where no parameter hides it, a function of the environment below shows through, and there are no
others. -/
theorem Overlays.lookup_of_function {function : DefId} (h : doc.Overlays stack base env)
    (hb : env.lookup name = some (.function function)) :
    base.lookup name = some (.function function) := by
  obtain ⟨names, values, -, rfl, -⟩ := h
  have hbase : base.Functions fun name id => base.lookup name = some (.function id) :=
    fun _ _ hlookup => hlookup
  exact hbase.bindAll names values name function hb

/-! ### Functions of a pass -/

/-- A name that stands for a function was last defined by it. -/
theorem Runs.lastDefinition_of_function {policy : ErrorPolicy} {statements : List Statement}
    {pass : Pass} {function : DefId} (h : doc.Runs policy stack statements pass)
    (hb : pass.env.lookup name = some (.function function)) :
    ∃ before definition, doc.LastDefinition name statements before function definition ∧
      definition.isFunction = true := by
  obtain ⟨before, number, definition, earlier, hlast, -, hbinds⟩ := h.exists_lastDefinition hb
  cases hbinds with
  | function hf => exact ⟨before, definition, hlast, hf⟩

/-- **The shape of every environment that a statement meets.** In a well-formed document, under every
configuration, take a statement at which a run arrives. If processing it evaluates an expression, then
the machine goes from there to the result, through all the moments that it can reach. Whenever any
expression is up,

* its environment is the one of the pass with values for some names, and each of these names is a
  parameter of a function that has a frame on the stack at that moment;
* a name that stands for a function is the name of this function, which is in the document and has
  parameters, and the statements so far have last defined the name by it. -/
theorem environments_overlay_pass (h : doc.WellFormed) (config : Config)
    {before after : List Statement} {statement : Statement} {pass : Pass} {next : CallStack}
    {root : ExprId} (hsplit : doc.statements.toList = before ++ statement :: after)
    (hrun : doc.runList config.errorPolicy before (.new config.maxCallDepth) = .ok pass next)
    (hroot : doc.Evaluates statement root) :
    ∀ machine, Machine.Reaches doc (.start pass.env root next) machine →
      Machine.Reaches doc machine (.ofResult [] (doc.evalExpr pass.env root next)) ∧
      ∀ env id, machine.control = .expr env id →
        doc.Overlays machine.stack pass.env env ∧
        ∀ name function, env.lookup name = some (.function function) →
          ∃ definition, doc.definitions[function.index]? = some definition ∧
            definition.params ≠ [] ∧ definition.name = name ∧
            ∃ first, doc.LastDefinition name before first function definition := by
  obtain ⟨-, hruns⟩ := runs_of_runList hrun
  have hknown : pass.env.Known doc := hruns.known (mem_statements_of_split hsplit).1
  have hlt : root.index < doc.exprs.size := h.root_lt (isRoot_of_root? hroot.root?_eq)
  have hresult := Machine.reaches_of_answers (evalExpr_answers h hknown hlt next)
  intro machine hreaches
  refine ⟨hreaches.reaches_result hresult, ?_⟩
  intro env id hup
  have hoverlays : doc.Overlays machine.stack pass.env env :=
    (doc.handsOn_overlays pass.env).moment_of_reaches (overlays_self doc next pass.env) hreaches hup
  refine ⟨hoverlays, ?_⟩
  intro name function hb
  obtain ⟨first, definition, ⟨later, hlater, hd, hname, hnone⟩, hf⟩ :=
    hruns.lastDefinition_of_function (hoverlays.lookup_of_function hb)
  have hparams : definition.params ≠ [] := by simpa [Definition.isFunction] using hf
  exact ⟨definition, hd, hparams, hname, first, later, hlater, hd, hname, hnone⟩

/-- The function `g` is defined twice. The body of the second one is `x + y`, where only `y` is a
parameter of its own. The function `f (x)` calls `g (x)`, and is called with two. -/
def borrowedParameter : Document where
  exprs := #[.number ⟨0x4000000000000000⟩, .call (some (.parameter ⟨2⟩ 0)) [],
    .call (some (.parameter ⟨1⟩ 0)) [], .binary .add ⟨1⟩ ⟨2⟩, .call (some (.definition ⟨0⟩)) [⟨1⟩],
    .call (some (.definition ⟨2⟩)) [⟨0⟩]]
  definitions := #[{ name := ⟨1⟩, params := [⟨3⟩], body := ⟨0⟩ },
    { name := ⟨1⟩, params := [⟨4⟩], body := ⟨3⟩ }, { name := ⟨2⟩, params := [⟨3⟩], body := ⟨4⟩ }]
  evaluations := #[{ expr := ⟨5⟩, source := none }]
  statements := #[.definition ⟨0⟩, .definition ⟨1⟩, .definition ⟨2⟩, .evaluation ⟨0⟩]

/-- The functions of the document, as the statements before the evaluation bind them. -/
def borrowedParameterEnv : Environment :=
  ((Environment.empty.define ⟨1⟩ (.function ⟨0⟩)).define ⟨1⟩ (.function ⟨1⟩)).define ⟨2⟩
    (.function ⟨2⟩)

/-- The moment at which `x` is up in the body of `g`. -/
def borrowedParameterMoment : Machine :=
  let two : Value := some ⟨0x4000000000000000⟩
  let env := (borrowedParameterEnv.bindAll [⟨3⟩] [two]).bindAll [⟨4⟩] [two]
  ⟨.expr env ⟨1⟩, [.left env .add ⟨2⟩, .leave, .leave], ⟨#[⟨⟨2⟩, ⟨5⟩⟩, ⟨⟨1⟩, ⟨4⟩⟩], 2⟩⟩

theorem borrowedParameter_reaches :
    Machine.Reaches borrowedParameter (.start borrowedParameterEnv ⟨5⟩ (.new 2))
      borrowedParameterMoment := by
  refine .head (.call ⟨_, _, rfl, rfl, rfl, rfl⟩ rfl) ?_
  refine .head .argument ?_
  refine .head (.number rfl) ?_
  refine .head .next ?_
  refine .head (.enter rfl) ?_
  refine .head (.call ⟨_, _, rfl, rfl, rfl, rfl⟩ rfl) ?_
  refine .head .argument ?_
  refine .head (.bound rfl rfl rfl) ?_
  refine .head .next ?_
  refine .head (.enter rfl) ?_
  exact .single (.binary rfl)

/-- Both `x` and `y` have the value two at that moment, by the frames of `f` and `g`, and `g` stands for
its second definition. -/
theorem borrowedParameter_overlays :
    borrowedParameter.WellFormed ∧
      borrowedParameter.runList .abortPass [.definition ⟨0⟩, .definition ⟨1⟩, .definition ⟨2⟩]
        (.new 2) = .ok { env := borrowedParameterEnv } (.new 2) ∧
      borrowedParameter.Evaluates (.evaluation ⟨0⟩) ⟨5⟩ ∧
      ∃ env, borrowedParameterMoment.control = .expr env ⟨1⟩ ∧
        env.lookup ⟨3⟩ = some (.value (some ⟨0x4000000000000000⟩)) ∧
        env.lookup ⟨4⟩ = some (.value (some ⟨0x4000000000000000⟩)) ∧
        borrowedParameter.Overlays borrowedParameterMoment.stack borrowedParameterEnv env ∧
        ∃ definition first, borrowedParameter.LastDefinition ⟨1⟩
          [.definition ⟨0⟩, .definition ⟨1⟩, .definition ⟨2⟩] first ⟨1⟩ definition := by
  have hw : borrowedParameter.WellFormed :=
    wellFormed_of_earlier (by decide) (by decide) (by decide) (by decide)
  have hrun : borrowedParameter.runList .abortPass
      [.definition ⟨0⟩, .definition ⟨1⟩, .definition ⟨2⟩] (.new 2) =
        .ok { env := borrowedParameterEnv } (.new 2) := rfl
  have hroot : borrowedParameter.Evaluates (.evaluation ⟨0⟩) ⟨5⟩ := ⟨_, rfl, rfl⟩
  obtain ⟨-, hup⟩ := environments_overlay_pass hw { maxCallDepth := 2 } rfl hrun hroot _
    borrowedParameter_reaches
  obtain ⟨hoverlays, hfunctions⟩ := hup _ _ rfl
  obtain ⟨definition, -, -, -, first, hlast⟩ := hfunctions ⟨1⟩ ⟨1⟩ rfl
  exact ⟨hw, hrun, hroot, _, rfl, rfl, rfl, hoverlays, definition, first, hlast⟩

end Document

end Reckon
