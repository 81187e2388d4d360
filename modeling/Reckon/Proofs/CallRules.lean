import Mathlib.Data.List.Forall2
import Reckon.Proofs.SelfCalls

/-!
# The rules of a call

A call of a function can go wrong in several places, and more than one of them may do so at once.
This file states what becomes of a call as four rules, of which exactly one applies: the number of
arguments is checked before any of them is evaluated, the arguments are evaluated before the limit is
looked at, and only then is the body evaluated.

* `Environment.Rebinds`: names get new values, of equal names the last, and all others keep what they
  stand for. There is one such environment (`Rebinds.unique`), and it is `Environment.bindAll`.
* `Document.YieldsAll`: arguments come to values, each of them in the environment of the caller.
* `Document.CallYields`: the rules.
* `CallYields.yields`: what they say is the outcome of the call; `exists_callYields`: one of them
  applies.
* `Machine.reaches_argument`: an argument is taken up after those before it have come to values.
* `call_yields_iff`: all of it together.
-/

namespace Reckon

/-! ### The environment of a body -/

namespace Environment

variable {env callee other : Environment} {name : Name} {names : List Name} {values : List Value}

/-- In `callee`, each of the names has the last of the values given to it, and all others are bound as
in `env`. -/
structure Rebinds (env : Environment) (names : List Name) (values : List Value)
    (callee : Environment) : Prop where
  last : ∀ (i : ℕ) (name : Name) (value : Value), names[i]? = some name →
    values[i]? = some value → (∀ j, i < j → names[j]? ≠ some name) →
    callee.lookup name = some (.value value)
  kept : ∀ name, name ∉ names → callee.lookup name = env.lookup name

theorem lookup_bindAll_of_last {i : ℕ} {value : Value} (hname : names[i]? = some name)
    (hvalue : values[i]? = some value) (hlast : ∀ j, i < j → names[j]? ≠ some name)
    (env : Environment) : (env.bindAll names values).lookup name = some (.value value) := by
  induction names generalizing env values i with
  | nil => simp at hname
  | cons first names ih =>
    cases values with
    | nil => simp at hvalue
    | cons given values =>
      show ((env.define first (.value given)).bindAll names values).lookup name = _
      cases i with
      | zero =>
        have hnot : name ∉ names := by
          intro hmem
          obtain ⟨j, hj⟩ := List.mem_iff_getElem?.1 hmem
          exact hlast (j + 1) (by omega) hj
        have hfirst : first = name := by simpa using hname
        have hgiven : given = value := by simpa using hvalue
        rw [lookup_bindAll_of_notMem hnot, hfirst, hgiven, lookup_define_self]
      | succ i =>
        apply ih hname hvalue
        intro j hj
        exact hlast (j + 1) (by omega)

theorem rebinds_bindAll (env : Environment) (names : List Name) (values : List Value) :
    env.Rebinds names values (env.bindAll names values) where
  last := fun _ _ _ hname hvalue hlast => lookup_bindAll_of_last hname hvalue hlast env
  kept := fun _ hnot => lookup_bindAll_of_notMem hnot env values

theorem exists_last_index (h : name ∈ names) :
    ∃ i : ℕ, names[i]? = some name ∧ ∀ j, i < j → names[j]? ≠ some name := by
  induction names with
  | nil => simp at h
  | cons first names ih =>
    by_cases hmem : name ∈ names
    · obtain ⟨i, hi, hlast⟩ := ih hmem
      refine ⟨i + 1, hi, ?_⟩
      intro j hj
      obtain ⟨j, rfl⟩ : ∃ k, j = k + 1 := ⟨j - 1, by omega⟩
      exact hlast j (by omega)
    · have hfirst : first = name := by
        simpa [hmem, eq_comm] using h
      refine ⟨0, by simp [hfirst], ?_⟩
      intro j hj hget
      obtain ⟨j, rfl⟩ : ∃ k, j = k + 1 := ⟨j - 1, by omega⟩
      exact hmem (List.mem_of_getElem? hget)

/-- There is only one such environment, if there is a value for each name. -/
theorem Rebinds.unique (h : env.Rebinds names values callee) (h' : env.Rebinds names values other)
    (hlength : names.length = values.length) : callee = other := by
  ext1 name
  by_cases hmem : name ∈ names
  · obtain ⟨i, hi, hlast⟩ := exists_last_index hmem
    have hlt : i < values.length := by
      have hi' := (List.getElem?_eq_some_iff.1 hi).1
      omega
    have hvalue : values[i]? = some values[i] := List.getElem?_eq_getElem hlt
    rw [h.last i name _ hi hvalue hlast, h'.last i name _ hi hvalue hlast]
  · rw [h.kept name hmem, h'.kept name hmem]

end Environment

namespace Document

variable {doc : Document} {stack : CallStack} {env : Environment} {call arg : ExprId}
  {function : DefId} {definition : Definition} {args before after : List ExprId}
  {values : List Value} {outcome : Outcome} {error : EvalError}

/-! ### Arguments -/

theorem Yields.evalExpr_of_ok {id : ExprId} {value : Value}
    (h : doc.Yields stack env id (.ok value)) : doc.evalExpr env id stack = .ok value stack := by
  obtain ⟨other, hother, -⟩ | ⟨stop, hstop, -⟩ := doc.evalExpr_ends env id stack
  · have heq := h.unique (yields_ok hother)
    cases heq
    exact hother
  · rw [Yields, EvalM.attempt, hstop] at h
    cases stop <;> cases h

/-- The expressions come to the values, one by one, on the same stack and in the same environment. -/
def YieldsAll (doc : Document) (stack : CallStack) (env : Environment) (args : List ExprId)
    (values : List Value) : Prop :=
  List.Forall₂ (fun arg value => doc.Yields stack env arg (.ok value)) args values

theorem mapM_of_yieldsAll (h : doc.YieldsAll stack env args values) :
    args.mapM (doc.evalExpr env) stack = .ok values stack := by
  induction h with
  | nil => rfl
  | cons harg _ ih =>
    rw [List.mapM_cons]
    simp only [bind, EStateM.bind, harg.evalExpr_of_ok, ih]
    rfl

theorem mapM_of_error (h : doc.YieldsAll stack env before values)
    (herror : doc.Yields stack env arg (.error error)) (after : List ExprId) :
    (before ++ arg :: after).mapM (doc.evalExpr env) stack = .error (.error error) stack := by
  induction h with
  | nil =>
    rw [List.nil_append, List.mapM_cons]
    simp only [bind, EStateM.bind, herror.evalExpr_of_error]
  | cons harg _ ih =>
    rw [List.cons_append, List.mapM_cons]
    simp only [bind, EStateM.bind, harg.evalExpr_of_ok, ih]

/-- Arguments come to values, or there is a first one that comes to an error. -/
theorem exists_yieldsAll_or_error
    (h : ∀ arg ∈ args, ∃ outcome, doc.Yields stack env arg outcome) :
    (∃ values, doc.YieldsAll stack env args values) ∨
      ∃ before arg after values error, args = before ++ arg :: after ∧
        doc.YieldsAll stack env before values ∧ doc.Yields stack env arg (.error error) := by
  induction args with
  | nil => exact Or.inl ⟨[], .nil⟩
  | cons first args ih =>
    obtain ⟨outcome, hfirst⟩ := h first List.mem_cons_self
    cases outcome with
    | error error => exact Or.inr ⟨[], first, args, [], error, rfl, .nil, hfirst⟩
    | ok value =>
      obtain ⟨values, hvalues⟩ | ⟨before, arg, after, values, error, hsplit, hbefore, herror⟩ :=
        ih fun x hx => h x (List.mem_cons_of_mem first hx)
      · exact Or.inl ⟨value :: values, .cons hfirst hvalues⟩
      · refine Or.inr ⟨first :: before, arg, after, value :: values, error, ?_, ?_, herror⟩
        · rw [hsplit, List.cons_append]
        · exact .cons hfirst hbefore

/-! ### The rules -/

/-- How a call of a function comes to its outcome. -/
inductive CallYields (doc : Document) (stack : CallStack) (env : Environment) (call : ExprId)
    (function : DefId) (definition : Definition) (args : List ExprId) : Outcome → Prop
  /-- The arguments are too many or too few. -/
  | arity (h : definition.arity ≠ args.length) :
      CallYields doc stack env call function definition args
        (.error (.arityMismatch (doc.text definition.name) function call definition.arity args.length))
  /-- An argument fails, and those before it do not. The stack may be full or not. -/
  | argument {before after : List ExprId} {arg : ExprId} {values : List Value} {error : EvalError}
      (harity : definition.arity = args.length) (hargs : args = before ++ arg :: after)
      (hbefore : doc.YieldsAll stack env before values)
      (herror : doc.Yields stack env arg (.error error)) :
      CallYields doc stack env call function definition args (.error error)
  /-- There is no room for a frame. -/
  | full {values : List Value} (harity : definition.arity = args.length)
      (hargs : doc.YieldsAll stack env args values) (hfull : stack.limit ≤ stack.depth) :
      CallYields doc stack env call function definition args
        (.error (.recursionLimit (doc.text definition.name) call stack.limit))
  /-- The body is evaluated in a frame of its own, with the parameters bound to the values. -/
  | body {values : List Value} {callee : Environment} {outcome : Outcome}
      (harity : definition.arity = args.length) (hargs : doc.YieldsAll stack env args values)
      (hroom : stack.depth < stack.limit) (hcallee : env.Rebinds definition.params values callee)
      (hbody : doc.Yields { stack with frames := stack.frames.push ⟨function, call⟩ } callee
        definition.body outcome) :
      CallYields doc stack env call function definition args outcome

/-- A frame that is opened for a body is closed after it, whatever the outcome. -/
theorem attempt_inFrame {frame : Frame} {callee : Environment} {id : ExprId}
    (hroom : stack.depth < stack.limit)
    (h : doc.Yields { stack with frames := stack.frames.push frame } callee id outcome) :
    EvalM.attempt (EvalM.inFrame doc frame (doc.evalExpr callee id)) stack = .ok outcome stack := by
  have hpush := CallStack.push_of_lt doc frame hroom
  have hpop := CallStack.pop_of_push hpush
  cases outcome with
  | ok value => simp only [EvalM.attempt, EvalM.inFrame, hpush, h.evalExpr_of_ok, hpop]
  | error error => simp only [EvalM.attempt, EvalM.inFrame, hpush, h.evalExpr_of_error, hpop]

/-- **What the rules say is the outcome of the call.** -/
theorem CallYields.yields (hacyclic : doc.Acyclic)
    (hcalls : doc.Calls env call function definition args)
    (h : doc.CallYields stack env call function definition args outcome) :
    doc.Yields stack env call outcome := by
  cases h with
  | arity harity =>
    apply yields_error
    rw [evalExpr_of_arity hcalls harity]
    rfl
  | @argument before after arg values error harity hargs hbefore herror =>
    apply yields_error
    rw [evalExpr_of_calls hacyclic hcalls harity, hargs]
    simp only [bind, EStateM.bind, mapM_of_error hbefore herror]
  | full harity hargs hfull =>
    apply yields_error
    have hpush := @CallStack.push_of_le stack doc ⟨function, call⟩ _ hcalls.definition_eq hfull
    rw [evalExpr_of_calls hacyclic hcalls harity]
    simp only [bind, EStateM.bind, mapM_of_yieldsAll hargs, EvalM.inFrame, hpush]
  | @body values callee outcome harity hargs hroom hcallee hbody =>
    have hlength : definition.params.length = values.length := by
      have hvalues := List.Forall₂.length_eq hargs
      rw [← hvalues]
      exact harity
    have heq := (env.rebinds_bindAll definition.params values).unique hcallee hlength
    have hrun : doc.evalExpr env call stack =
        EvalM.inFrame doc ⟨function, call⟩ (doc.evalExpr callee definition.body) stack := by
      rw [evalExpr_of_calls hacyclic hcalls harity]
      simp only [bind, EStateM.bind, mapM_of_yieldsAll hargs, heq]
    rw [Yields, EvalM.attempt, hrun]
    exact attempt_inFrame hroom hbody

/-- **One of the rules applies.** -/
theorem exists_callYields (h : doc.WellFormed) (hk : env.Known doc)
    (hcalls : doc.Calls env call function definition args) (stack : CallStack) :
    ∃ outcome, doc.CallYields stack env call function definition args outcome := by
  by_cases harity : definition.arity = args.length
  · have hyields : ∀ arg ∈ args, ∃ outcome, doc.Yields stack env arg outcome := by
      intro arg harg
      exact exists_yields h hk (h.child_lt (hcalls.child harg)) stack
    obtain ⟨values, hvalues⟩ | ⟨before, arg, after, values, error, hargs, hbefore, herror⟩ :=
      exists_yieldsAll_or_error hyields
    · by_cases hroom : stack.depth < stack.limit
      · have hbody : definition.body.index < doc.exprs.size :=
          h.root_lt (Or.inl ⟨_, Array.mem_of_getElem? hcalls.definition_eq, rfl⟩)
        obtain ⟨outcome, houtcome⟩ := exists_yields h (hk.bindAll definition.params values) hbody
          { stack with frames := stack.frames.push ⟨function, call⟩ }
        exact ⟨outcome, .body harity hvalues hroom (env.rebinds_bindAll _ values) houtcome⟩
      · exact ⟨_, .full harity hvalues (by omega)⟩
    · exact ⟨_, .argument harity hargs hbefore herror⟩
  · exact ⟨_, .arity harity⟩

end Document

/-! ### What is taken up for a call -/

namespace Machine

variable {doc : Document} {stack : CallStack} {env : Environment} {call arg : ExprId}
  {function : DefId} {definition : Definition} {args before after : List ExprId}
  {values : List Value}

/-- Arguments are taken up one after the other, as long as they come to values. -/
theorem reaches_arguments_of_yieldsAll {frame : Frame} (h : doc.YieldsAll stack env before values)
    (known : List Value) (rest : List ExprId) (tasks : List Task) :
    Reaches doc ⟨.arguments env frame definition known (before ++ rest), tasks, stack⟩
      ⟨.arguments env frame definition (known ++ values) rest, tasks, stack⟩ := by
  induction h generalizing known with
  | nil =>
    rw [List.nil_append, List.append_nil]
    exact .refl
  | @cons arg value before values harg _ ih =>
    have htake : Reaches doc
        ⟨.arguments env frame definition known (arg :: (before ++ rest)), tasks, stack⟩
        ⟨.expr env arg, .argument env frame definition known (before ++ rest) :: tasks, stack⟩ :=
      Moves.argument.reaches
    have hresult := harg.evalExpr_of_ok
    have hvalue := performs_evalExpr doc env arg stack
      (.argument env frame definition known (before ++ rest) :: tasks) (by simp [hresult])
    rw [hresult] at hvalue
    have hnext := (htake.trans hvalue).tail Moves.next
    have hrest := ih (known ++ [value])
    rw [List.append_assoc, List.singleton_append] at hrest
    exact hnext.trans hrest

/-- An argument is taken up in the environment of the call, after those before it have come to
values. -/
theorem reaches_argument (hcalls : doc.Calls env call function definition (before ++ arg :: after))
    (harity : definition.arity = (before ++ arg :: after).length)
    (h : doc.YieldsAll stack env before values) :
    Reaches doc (.start env call stack)
      ⟨.expr env arg, [.argument env ⟨function, call⟩ definition values after], stack⟩ := by
  have hcall : Reaches doc (.start env call stack)
      ⟨.arguments env ⟨function, call⟩ definition [] (before ++ arg :: after), [], stack⟩ :=
    (Moves.call hcalls harity).reaches
  have hbefore : Reaches doc
      ⟨.arguments env ⟨function, call⟩ definition [] (before ++ arg :: after), [], stack⟩
      ⟨.arguments env ⟨function, call⟩ definition values (arg :: after), [], stack⟩ :=
    reaches_arguments_of_yieldsAll h [] (arg :: after) []
  exact (hcall.trans hbefore).tail Moves.argument

/-- With the wrong number of arguments a call stops at once. -/
theorem eq_of_reaches_of_arity {machine : Machine}
    (hcalls : doc.Calls env call function definition args)
    (harity : definition.arity ≠ args.length)
    (h : Reaches doc (.start env call stack) machine) :
    machine = .start env call stack ∨
      machine = ⟨.stop (.error (.arityMismatch (doc.text definition.name) function call
        definition.arity args.length)), [], stack⟩ := by
  induction h with
  | refl => exact Or.inl rfl
  | tail _ hmove ih =>
    obtain hstart | hstop := ih
    · rw [hstart] at hmove
      exact Or.inr (hmove.unique (Moves.arity hcalls harity))
    · rw [hstop] at hmove
      cases hmove

end Machine

namespace Document

variable {doc : Document} {env : Environment} {call : ExprId} {function : DefId}
  {target : Option CallTarget} {args : List ExprId} {name : Name}

/-- **A call goes by its rules.** In a well-formed document let a call go by a name that stands for a
function, in an environment whose functions are all there. Then the function is there, and on every
stack the call comes to an outcome, which is the one that the rules give:

* the wrong number of arguments comes before everything else;
* then the first argument that fails, on a full stack as well;
* then a full stack;
* then the body, in a new frame and with the parameters bound to the values of the arguments.

If the number of arguments is wrong, the call stops before anything is taken up. Otherwise each argument
is taken up after those before it have come to values, and in the environment of the call. -/
theorem call_yields_iff (h : doc.WellFormed) (hk : env.Known doc)
    (hexpr : doc.exprs[call.index]? = some (.call target args))
    (hname : target.bind doc.targetName? = some name)
    (hb : env.lookup name = some (.function function)) (stack : CallStack) :
    ∃ definition, doc.definitions[function.index]? = some definition ∧
      (∃ outcome, doc.Yields stack env call outcome) ∧
      (∀ outcome, doc.Yields stack env call outcome ↔
        doc.CallYields stack env call function definition args outcome) ∧
      (definition.arity ≠ args.length → ∀ machine,
        Machine.Reaches doc (.start env call stack) machine →
        machine = .start env call stack ∨
          machine = ⟨.stop (.error (.arityMismatch (doc.text definition.name) function call
            definition.arity args.length)), [], stack⟩) ∧
      ∀ before arg after values, definition.arity = args.length → args = before ++ arg :: after →
        doc.YieldsAll stack env before values →
        Machine.Reaches doc (.start env call stack)
          ⟨.expr env arg, [.argument env ⟨function, call⟩ definition values after], stack⟩ := by
  have hlt : function.index < doc.definitions.size := hk name function hb
  have hd : doc.definitions[function.index]? = some doc.definitions[function.index] :=
    Array.getElem?_eq_getElem hlt
  have hcalls : doc.Calls env call function doc.definitions[function.index] args :=
    ⟨target, name, hexpr, hname, hb, hd⟩
  obtain ⟨expected, hexpected⟩ := exists_callYields h hk hcalls stack
  have hyields := hexpected.yields h.acyclic hcalls
  refine ⟨doc.definitions[function.index], hd, ⟨expected, hyields⟩, ?_, ?_, ?_⟩
  · intro outcome
    constructor
    · intro houtcome
      rw [houtcome.unique hyields]
      exact hexpected
    · intro hrule
      exact hrule.yields h.acyclic hcalls
  · intro harity machine hreaches
    exact Machine.eq_of_reaches_of_arity hcalls harity hreaches
  · intro before arg after values harity hargs hvalues
    rw [hargs] at hcalls harity
    exact Machine.reaches_argument hcalls harity hvalues

/-- `f (x, x)` has `x` as its body. There are the calls `f (2, x)`, `f (g)` and `f (2, g)`, where `g` is
a name that was not found. -/
def lastParameter : Document where
  exprs := #[.call (some (.parameter ⟨0⟩ 0)) [], .number ⟨0x4000000000000000⟩, .call none [],
    .call (some (.definition ⟨0⟩)) [⟨1⟩, ⟨0⟩], .call (some (.definition ⟨0⟩)) [⟨2⟩],
    .call (some (.definition ⟨0⟩)) [⟨1⟩, ⟨2⟩]]
  definitions := #[{ name := ⟨1⟩, params := [⟨2⟩, ⟨2⟩], body := ⟨0⟩ }]
  statements := #[.definition ⟨0⟩]

/-- The function, and `x` bound to three. -/
def lastParameterEnv : Environment :=
  (Environment.empty.define ⟨1⟩ (.function ⟨0⟩)).define ⟨2⟩ (.value (some ⟨0x4008000000000000⟩))

/-- `f (2, x)` is the `x` of the caller: neither does the first `x` count, nor is it seen by the second
argument. Without room for a frame, this call alone is an error for it. -/
theorem lastParameter_yields :
    lastParameter.WellFormed ∧ lastParameterEnv.Known lastParameter ∧
      lastParameter.Yields (.new 1) lastParameterEnv ⟨3⟩ (.ok (some ⟨0x4008000000000000⟩)) ∧
      lastParameter.Yields (.new 0) lastParameterEnv ⟨3⟩ (.error (.recursionLimit "" ⟨3⟩ 0)) ∧
      lastParameter.Yields (.new 0) lastParameterEnv ⟨4⟩ (.error (.arityMismatch "" ⟨0⟩ ⟨4⟩ 2 1)) ∧
      lastParameter.Yields (.new 0) lastParameterEnv ⟨5⟩ (.error (.unlinkedReference ⟨2⟩)) := by
  have hw : lastParameter.WellFormed :=
    wellFormed_of_earlier (by decide) (by decide) (by decide) (by decide)
  have hk : lastParameterEnv.Known lastParameter := by
    apply Environment.Known.define_value
    apply (Environment.known_empty lastParameter).define
    intro id hid
    cases hid
    decide
  have hb : lastParameterEnv.lookup ⟨1⟩ = some (.function ⟨0⟩) := rfl
  refine ⟨hw, hk, ?_, ?_, ?_, ?_⟩
  · obtain ⟨definition, hd, -, hrules, -⟩ := @call_yields_iff _ _ ⟨3⟩ _ _ _ _ hw hk rfl rfl hb (.new 1)
    cases hd
    have hargs : lastParameter.YieldsAll (.new 1) lastParameterEnv [⟨1⟩, ⟨0⟩]
        [some ⟨0x4000000000000000⟩, some ⟨0x4008000000000000⟩] := .cons rfl (.cons rfl .nil)
    exact (hrules _).2 (.body rfl hargs (by decide) (Environment.rebinds_bindAll _ _ _) rfl)
  · obtain ⟨definition, hd, -, hrules, -⟩ := @call_yields_iff _ _ ⟨3⟩ _ _ _ _ hw hk rfl rfl hb (.new 0)
    cases hd
    have hargs : lastParameter.YieldsAll (.new 0) lastParameterEnv [⟨1⟩, ⟨0⟩]
        [some ⟨0x4000000000000000⟩, some ⟨0x4008000000000000⟩] := .cons rfl (.cons rfl .nil)
    exact (hrules _).2 (.full rfl hargs (by decide))
  · obtain ⟨definition, hd, -, hrules, -⟩ := @call_yields_iff _ _ ⟨4⟩ _ _ _ _ hw hk rfl rfl hb (.new 0)
    cases hd
    exact (hrules _).2 (.arity (by decide))
  · obtain ⟨definition, hd, -, hrules, -⟩ := @call_yields_iff _ _ ⟨5⟩ _ _ _ _ hw hk rfl rfl hb (.new 0)
    cases hd
    have hbefore : lastParameter.YieldsAll (.new 0) lastParameterEnv [⟨1⟩]
        [some ⟨0x4000000000000000⟩] := .cons rfl .nil
    have herror : lastParameter.Yields (.new 0) lastParameterEnv ⟨2⟩
        (.error (.unlinkedReference ⟨2⟩)) := rfl
    have hsplit : ([⟨1⟩, ⟨2⟩] : List ExprId) = [⟨1⟩] ++ ⟨2⟩ :: [] := rfl
    exact (hrules _).2 (.argument rfl hsplit hbefore herror)

end Document

end Reckon
