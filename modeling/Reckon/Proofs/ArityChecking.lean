import Reckon.Proofs.Moments
import Reckon.Proofs.Validation

/-!
# Checked calls take their arguments

Validation compares a call with the definition that it is linked to. Evaluation goes by the name of
that definition, which may stand for another one by then, or for no function at all if a parameter has
the same name. This file shows when the check is enough all the same.

* `Document.WellScoped`: definitions of one name take as many arguments, and the parameters of a
  function are called in its own body only.
* `arity_eq_of_checks`: what validation without errors about the number of arguments says.
* `Document.InScope`: what is so whenever an expression is evaluated. In a body, every parameter has a
  value, so that no parameter is taken for a function.
* `InScope.arity_eq`: whatever function a call finds takes its arguments.
* `arityMismatch_not_reported`: the errors of a run.
-/

namespace Reckon

/-- Names that are bound along with as many values have values afterwards, and so do names that had
values before. -/
theorem Environment.exists_value_bindAll {env : Environment} {name : Name} {names : List Name}
    {values : List Value} (hlength : names.length = values.length)
    (h : name ∈ names ∨ ∃ value, env.lookup name = some (.value value)) :
    ∃ value, (env.bindAll names values).lookup name = some (.value value) := by
  induction names generalizing env values with
  | nil =>
    rcases h with hmem | hvalue
    · cases hmem
    · exact hvalue
  | cons first names ih =>
    cases values with
    | nil => cases hlength
    | cons value values =>
      show ∃ v, ((env.define first (.value value)).bindAll names values).lookup name = _
      apply ih (Nat.succ.inj hlength)
      by_cases hfirst : first = name
      · exact Or.inr ⟨value, by rw [lookup_define, if_pos hfirst]⟩
      · rcases h with hmem | ⟨earlier, hearlier⟩
        · exact Or.inl ((List.mem_cons.1 hmem).resolve_left fun heq => hfirst heq.symm)
        · exact Or.inr ⟨earlier, by rw [lookup_define, if_neg hfirst, hearlier]⟩

namespace Document

variable {doc : Document} {env : Environment} {id : ExprId} {statement : Statement}

/-- Names can be relied on: definitions of one name take as many arguments, and a statement that leads
to a call of a parameter is the definition that the parameter belongs to. -/
structure WellScoped (doc : Document) : Prop where
  arity_eq : ∀ {a b : Definition}, a ∈ doc.definitions → b ∈ doc.definitions → a.name = b.name →
    a.arity = b.arity
  owner_eq : ∀ {statement : Statement} {root call : ExprId} {owner : DefId} {index : ℕ}
    {args : List ExprId}, statement ∈ doc.statements → doc.root? statement = some root →
    doc.Within root call →
    doc.exprs[call.index]? = some (.call (some (.parameter owner index)) args) →
    statement = .definition owner

/-- The definition whose parameter the expression calls. -/
def parameterOwner? (doc : Document) (id : ExprId) : Option DefId :=
  match doc.exprs[id.index]? with
  | some (.call (some (.parameter owner _)) _) => some owner
  | _ => none

/-- The scopes of a document can be checked by going through its expressions. -/
theorem wellScoped_of_preorder (hacyclic : doc.Acyclic)
    (harity : ∀ a ∈ doc.definitions, ∀ b ∈ doc.definitions, a.name = b.name → a.arity = b.arity)
    (howner : ∀ statement ∈ doc.statements, ∀ root ∈ (doc.root? statement).toList,
      ∀ call ∈ doc.preorder root, ∀ owner ∈ (doc.parameterOwner? call).toList,
        statement = .definition owner) :
    doc.WellScoped where
  arity_eq ha hb := harity _ ha _ hb
  owner_eq := by
    intro statement root call owner index args hmem hroot hwithin hexpr
    apply howner statement hmem root (by simp [hroot]) call ((mem_preorder hacyclic).2 hwithin)
    simp [parameterOwner?, hexpr]

/-! ### What validation says -/

/-- A call that validation finds nothing wrong with has as many arguments as the definition that it is
linked to has parameters. -/
theorem arity_eq_of_checks {changes : Char → Bool} {callee : DefId} {definition : Definition}
    {args : List ExprId} (hacyclic : doc.Acyclic)
    (hnone : ∀ diagnostic ∈ doc.checks changes, diagnostic.code ≠ .wrongArgumentCount)
    (hvisited : doc.Visited id)
    (hexpr : doc.exprs[id.index]? = some (.call (some (.definition callee)) args))
    (hd : doc.definitions[callee.index]? = some definition) : definition.arity = args.length := by
  by_contra hne
  have hfound : doc.nodeDiagnostic? id =
      some (arityDiagnostic id (doc.text definition.name) definition.arity args.length) := by
    rw [nodeDiagnostic?_of_call hexpr]
    simp only [checkArity, definition?, hd, if_neg hne]
  have hmem : arityDiagnostic id (doc.text definition.name) definition.arity args.length ∈
      doc.checks changes := by
    apply List.mem_append_right
    exact List.mem_filterMap.2 ⟨id, (mem_visitOrder hacyclic).2 hvisited, hfound⟩
  exact hnone _ hmem rfl

/-! ### What holds whenever an expression is evaluated -/

/-- Every parameter has a value, where the statement is the definition of a function. -/
def ParamsBound (doc : Document) (env : Environment) : Statement → Prop
  | .definition number => ∀ definition, doc.definitions[number.index]? = some definition →
      ∀ name ∈ definition.params, ∃ value, env.lookup name = some (.value value)
  | .evaluation _ => True

/-- Functions go by the names that statements give them, and the expression belongs to a statement
whose parameters have values. -/
def InScope (doc : Document) (env : Environment) (id : ExprId) : Prop :=
  env.Functions doc.Introduces ∧ ∃ statement ∈ doc.statements, ∃ root,
    doc.root? statement = some root ∧ doc.Within root id ∧ doc.ParamsBound env statement

theorem InScope.visited (h : doc.InScope env id) : doc.Visited id := by
  obtain ⟨-, statement, hmem, root, hroot, hwithin, -⟩ := h
  exact ⟨statement, hmem, root, hroot, hwithin⟩

theorem handsOn_inScope (doc : Document) : doc.HandsOn fun _ => doc.InScope where
  part hscope hchild := by
    obtain ⟨henv, statement, hmem, root, hroot, hwithin, hbound⟩ := hscope
    exact ⟨henv, statement, hmem, root, hroot, hwithin.trans (.of_child hchild (.refl doc _)), hbound⟩
  body := by
    intro stack inner env call function definition args values hscope hcalls harity hlength _
    have hd := hcalls.definition_eq
    have hroot : doc.root? (.definition function) = some definition.body := by
      rw [root?, hd]
      rfl
    refine ⟨hscope.1.bindAll _ values, .definition function, (hcalls.introduced hscope.1).1,
      definition.body, hroot, .refl doc _, ?_⟩
    intro other hother name hname
    obtain rfl : definition = other := Option.some.inj (hd.symm.trans hother)
    exact Environment.exists_value_bindAll (harity.trans hlength.symm) (Or.inl hname)

/-- An expression that a statement evaluates is not the body of a function, so that there are no
parameters to have values. -/
theorem Evaluates.inScope (h : doc.Evaluates statement id) (hmem : statement ∈ doc.statements)
    (henv : env.Functions doc.Introduces) : doc.InScope env id := by
  refine ⟨henv, statement, hmem, id, h.root?_eq, .refl doc id, ?_⟩
  cases statement with
  | evaluation number => trivial
  | definition number =>
    obtain ⟨definition, hd, hvariable, rfl⟩ := h
    intro other hother name hname
    obtain rfl : definition = other := Option.some.inj (hd.symm.trans hother)
    have hparams : definition.params = [] := by simpa [Definition.isFunction] using hvariable
    rw [hparams] at hname
    cases hname

/-- The name under which a call finds a function is the one that the function was given. -/
theorem Calls.lookup_name {function : DefId} {definition : Definition} {args : List ExprId}
    (h : doc.Calls env id function definition args) (henv : env.Functions doc.Introduces) :
    env.lookup definition.name = some (.function function) := by
  obtain ⟨target, name, -, -, hlookup, hd⟩ := h
  obtain ⟨-, other, hother, rfl, -⟩ := henv name function hlookup
  obtain rfl : definition = other := Option.some.inj (hd.symm.trans hother)
  exact hlookup

/-- **Whatever function a call finds takes its arguments**, if the definition that the call is linked
to does. -/
theorem InScope.arity_eq {function : DefId} {definition : Definition} {args : List ExprId}
    (hs : doc.WellScoped) (h : doc.InScope env id)
    (hchecked : ∀ callee linked,
      doc.exprs[id.index]? = some (.call (some (.definition callee)) args) →
      doc.definitions[callee.index]? = some linked → linked.arity = args.length)
    (hcalls : doc.Calls env id function definition args) : definition.arity = args.length := by
  obtain ⟨henv, statement, hmem, root, hroot, hwithin, hbound⟩ := h
  obtain ⟨-, -, target, hexpr, hname⟩ := hcalls.introduced henv
  have hfunction := Array.mem_of_getElem? hcalls.definition_eq
  obtain ⟨link, rfl, hlink⟩ := Option.bind_eq_some_iff.1 hname
  cases link with
  | definition callee =>
    obtain ⟨linked, hlinked, hsame⟩ := Option.map_eq_some_iff.1 hlink
    calc definition.arity = linked.arity :=
          hs.arity_eq hfunction (Array.mem_of_getElem? hlinked) hsame.symm
      _ = args.length := hchecked callee linked hexpr hlinked
  | parameter owner index =>
    -- the call is in the body of the owner, where this name stands for a value
    obtain rfl := hs.owner_eq hmem hroot hwithin hexpr
    obtain ⟨own, hown, hparam⟩ := Option.bind_eq_some_iff.1 hlink
    obtain ⟨value, hvalue⟩ := hbound own hown _ (List.mem_of_getElem? hparam)
    rw [hcalls.lookup_name henv] at hvalue
    cases hvalue

/-- **The check of the number of arguments is enough.** Validation gets through every well-formed
document. If names can be relied on and it finds no call with the wrong number of arguments, then no
run does, whatever the policy and the limit on the depth of calls. -/
theorem arityMismatch_not_reported (h : doc.WellFormed) (hs : doc.WellScoped)
    (changes : Char → Bool) :
    ∃ diagnostics, doc.validate changes = .ok diagnostics ∧
      ((∀ diagnostic ∈ diagnostics, diagnostic.code ≠ .wrongArgumentCount) →
        ∀ evaluator : Evaluator, evaluator.document = doc →
          ∀ name function call expected got,
            ¬ evaluator.Reports (.arityMismatch name function call expected got)) := by
  refine ⟨doc.checks changes, validate_of_walkable h.walkable changes, ?_⟩
  intro hnone evaluator hdoc name function call expected got hreports
  subst hdoc
  obtain ⟨origin, env, id, hscope, hraises⟩ :=
    evaluator.document.handsOn_inScope.exists_raises_of_reports
      (fun env statement root henv hmem hevaluates => hevaluates.inScope hmem henv) hreports
  cases hraises with
  | arity hcalls hne =>
    apply hne
    apply hscope.arity_eq hs _ hcalls
    intro callee linked hexpr hlinked
    exact arity_eq_of_checks h.acyclic hnone hscope.visited hexpr hlinked

/-- The function `g` is defined twice with one parameter. In between, `h` is defined with a parameter
of the name `g`, which is called with two arguments in the body. -/
def shadowedFunction : Document where
  exprs := #[.number ⟨0x3ff0000000000000⟩, .call (some (.parameter ⟨0⟩ 0)) [],
    .call (some (.parameter ⟨1⟩ 0)) [⟨0⟩, ⟨0⟩], .call (some (.definition ⟨0⟩)) [⟨0⟩],
    .call (some (.definition ⟨1⟩)) [⟨3⟩], .call (some (.parameter ⟨2⟩ 0)) []]
  definitions := #[{ name := ⟨1⟩, params := [⟨3⟩], body := ⟨1⟩ },
    { name := ⟨2⟩, params := [⟨1⟩], body := ⟨2⟩ }, { name := ⟨1⟩, params := [⟨4⟩], body := ⟨5⟩ }]
  evaluations := #[{ expr := ⟨4⟩, source := none }]
  statements := #[.definition ⟨0⟩, .definition ⟨1⟩, .definition ⟨2⟩, .evaluation ⟨0⟩]

theorem shadowedFunction_not_reported :
    shadowedFunction.WellFormed ∧ shadowedFunction.WellScoped ∧
      shadowedFunction.validate Uppercase.changes = .ok [] ∧
      ∀ config name function call expected got,
        ¬ (Evaluator.new shadowedFunction config).Reports
          (.arityMismatch name function call expected got) := by
  have hw : shadowedFunction.WellFormed :=
    wellFormed_of_earlier (by decide) (by decide) (by decide) (by decide)
  have hs : shadowedFunction.WellScoped :=
    wellScoped_of_preorder hw.acyclic (by decide) (by decide)
  have hchecks : shadowedFunction.checks Uppercase.changes = [] := by decide +kernel
  have hempty : shadowedFunction.validate Uppercase.changes = .ok [] := by
    rw [validate_of_walkable hw.walkable, hchecks]
  obtain ⟨diagnostics, hvalidate, hnone⟩ := arityMismatch_not_reported hw hs Uppercase.changes
  obtain rfl : diagnostics = [] := Except.ok.inj (hvalidate.symm.trans hempty)
  refine ⟨hw, hs, hempty, ?_⟩
  intro config
  exact hnone (by simp) (.new shadowedFunction config) rfl

end Document

end Reckon
