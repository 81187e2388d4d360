import Reckon.Proofs.Simulation

/-!
# Only visited code counts

A run takes up the expressions that its statements lead to, and nothing else in the table. So it is
enough that these expressions are in order, and a document that has the same code in these places runs
alike.

* `Contract.visiting`: functions that statements introduce and expressions that a walk comes by are
  handed on to parts and bodies. In a walkable document they are all there, so that an evaluation comes
  to an outcome (`Walkable.exists_yields`), and with errors recorded so does a pass
  (`Walkable.exists_runs`).
* `Document.Keeps`: another document has the same code in the places that statements lead to.
* `Yields.of_keeps`: an expression comes to the same outcome there.
-/

namespace Reckon

/-! ### Walkable documents answer -/

namespace Document

variable {doc : Document}

theorem visited_body {number : DefId} {definition : Definition}
    (hmem : .definition number ∈ doc.statements)
    (hd : doc.definitions[number.index]? = some definition) : doc.Visited definition.body := by
  apply visited_of_root? hmem
  rw [root?, hd]
  rfl

theorem visited_expr {number : EvaluationId} {evaluation : Evaluation}
    (hmem : .evaluation number ∈ doc.statements)
    (he : doc.evaluations[number.index]? = some evaluation) : doc.Visited evaluation.expr := by
  apply visited_of_root? hmem
  rw [root?, he]
  rfl

end Document

namespace Contract

variable {doc : Document}

/-- Assumes functions that statements introduce and expressions that a walk comes by, and allows errors
only. -/
def visiting (doc : Document) : Contract where
  env := Environment.Functions doc.Introduces
  expr := doc.Visited
  stop := fun stop => ∃ error, stop = .error error

theorem not_visiting_fault (doc : Document) (fault : Fault) :
    ¬ (visiting doc).stop (.fault fault) := by
  intro hstop
  obtain ⟨error, herror⟩ := hstop
  cases herror

theorem sound_visiting (h : doc.Walkable) (limit : ℕ) : (visiting doc).Sound doc limit where
  part hvisited hchild := hvisited.of_within (.of_child hchild (.refl doc _))
  bindAll names values henv := henv.bindAll names values
  body henv hcalls := Document.visited_body (hcalls.introduced henv).1 hcalls.definition_eq
  noExpr hvisited hle := absurd (h.visited_lt hvisited) (Nat.not_lt.2 hle)
  noDefinition := by
    intro env name function henv hlookup hle
    exact absurd (Document.known_of_introduces henv name function hlookup) (Nat.not_lt.2 hle)
  unlinked _ _ _ := ⟨_, rfl⟩
  arity _ _ _ _ := ⟨_, rfl⟩
  full _ _ _ _ := ⟨_, rfl⟩
  endless := Or.inl h.acyclic

theorem covers_visiting (h : doc.Walkable) : (visiting doc).Covers doc where
  start := Environment.functions_empty _
  root hmem hroot := Document.visited_of_root? hmem hroot
  function henv hmem hd hfunction := by
    apply henv.define
    intro number hnumber
    cases hnumber
    exact ⟨hmem, _, hd, rfl, hfunction⟩
  value _ _ henv := henv.define_value
  noStatement hmem hnot := absurd (h.hasStatement _ hmem) hnot

end Contract

namespace Document

variable {doc doc' : Document} {env : Environment} {id : ExprId} {stack : CallStack}
  {statement : Statement} {statements : List Statement} {outcome : Outcome}

theorem Walkable.exists_yields (h : doc.Walkable) (henv : env.Functions doc.Introduces)
    (hid : doc.Visited id) (stack : CallStack) : ∃ outcome, doc.Yields stack env id outcome :=
  (((Contract.sound_visiting h stack.limit).evalExpr henv hid).answers
    (Contract.not_visiting_fault doc)).attempt

theorem Walkable.exists_computes (h : doc.Walkable) (henv : env.Functions doc.Introduces)
    (hmem : statement ∈ doc.statements) (stack : CallStack) :
    ∃ outcome, doc.Computes stack env statement outcome := by
  have hhas := h.hasStatement statement hmem
  cases statement with
  | definition number =>
    have hd : doc.definitions[number.index]? = some doc.definitions[number.index] :=
      Array.getElem?_eq_getElem hhas
    cases hf : doc.definitions[number.index].isFunction with
    | true => exact ⟨_, .function hd hf⟩
    | false =>
      obtain ⟨outcome, hy⟩ := h.exists_yields henv (visited_body hmem hd) stack
      exact ⟨outcome, .assignment hd hf hy⟩
  | evaluation number =>
    have he : doc.evaluations[number.index]? = some doc.evaluations[number.index] :=
      Array.getElem?_eq_getElem hhas
    obtain ⟨outcome, hy⟩ := h.exists_yields henv (visited_expr hmem he) stack
    exact ⟨outcome, .evaluation he hy⟩

/-- Where errors are recorded, nothing ends a pass. -/
theorem Walkable.exists_runs (h : doc.Walkable) (stack : CallStack)
    (hmem : ∀ statement ∈ statements, statement ∈ doc.statements) :
    ∃ pass, doc.Runs .perEvaluation stack statements pass := by
  induction statements using List.reverseRecOn with
  | nil => exact ⟨{}, .nil⟩
  | append_singleton statements statement ih =>
    have hbefore : ∀ s ∈ statements, s ∈ doc.statements :=
      fun s hs => hmem s (List.mem_append_left _ hs)
    obtain ⟨pass, hruns⟩ := ih hbefore
    have hlast := hmem statement (List.mem_append_right _ (List.mem_singleton_self statement))
    obtain ⟨outcome, hc⟩ := h.exists_computes (hruns.introduced hbefore) hlast stack
    exact ⟨_, hruns.concat hc (ErrorPolicy.admits_perEvaluation outcome)⟩

/-! ### The same code where it counts -/

/-- `doc'` has the code of `doc` in the places that the statements of `doc` lead to: the expressions and
the names of their calls, and the functions with the texts of their names. -/
structure Keeps (doc doc' : Document) : Prop where
  expr_eq : ∀ {id : ExprId} {expr : Expr}, doc.Visited id → doc.exprs[id.index]? = some expr →
    doc'.exprs[id.index]? = some expr
  name_eq : ∀ {id : ExprId} {target : Option CallTarget} {args : List ExprId}, doc.Visited id →
    doc.exprs[id.index]? = some (.call target args) →
    target.bind doc'.targetName? = target.bind doc.targetName?
  function_eq : ∀ {number : DefId} {definition : Definition}, .definition number ∈ doc.statements →
    doc.definitions[number.index]? = some definition → definition.isFunction = true →
    doc'.definitions[number.index]? = some definition
  text_eq : ∀ {number : DefId} {definition : Definition}, .definition number ∈ doc.statements →
    doc.definitions[number.index]? = some definition →
    doc'.text definition.name = doc.text definition.name

theorem Keeps.calls {function : DefId} {definition : Definition} {args : List ExprId}
    (h : doc.Keeps doc') (henv : env.Functions doc.Introduces) (hid : doc.Visited id)
    (hcalls : doc.Calls env id function definition args) :
    doc'.Calls env id function definition args := by
  obtain ⟨hmem, hpos, -⟩ := hcalls.introduced henv
  obtain ⟨target, name, hexpr, hname, hlookup, hd⟩ := hcalls
  refine ⟨target, name, h.expr_eq hid hexpr, (h.name_eq hid hexpr).trans hname, hlookup, ?_⟩
  exact h.function_eq hmem hd (Definition.isFunction_iff.2 hpos)

end Document

namespace Simulation

variable {doc doc' : Document}

/-- The same expressions in the same environments, where the statements of the first document lead. -/
def visiting (doc : Document) : Simulation where
  env := fun env env' => env' = env ∧ env.Functions doc.Introduces
  expr := fun id id' => id' = id ∧ doc.Visited id
  error := fun error error' => error' = error
  excused := fun _ => False

theorem meets_visiting (h : doc.Walkable) (hkeeps : doc.Keeps doc') {env : Environment} {id : ExprId}
    (henv : env.Functions doc.Introduces) (hid : doc.Visited id) (limit : ℕ) :
    (visiting doc).Meets doc doc' limit limit env env id id := by
  have hpart : ∀ {part : ExprId}, doc.Child id part → doc.Visited part :=
    fun hc => hid.of_within (.of_child hc (.refl doc _))
  cases hexpr : doc.exprs[id.index]? with
  | none => exact absurd (h.visited_lt hid) (Nat.not_lt.2 (Array.getElem?_eq_none_iff.1 hexpr))
  | some expr =>
    have hexpr' := hkeeps.expr_eq hid hexpr
    cases expr with
    | number value => exact .number value hexpr hexpr'
    | error => exact .unreadable hexpr hexpr'
    | binary op left right =>
      exact .binary op hexpr hexpr' ⟨rfl, hpart (Document.child_left hexpr)⟩
        ⟨rfl, hpart (Document.child_right hexpr)⟩
    | call target args =>
      have hnames : target.bind doc'.targetName? =
          (target.bind doc.targetName?).map fun name => name := by
        rw [hkeeps.name_eq hid hexpr, Option.map_id']
      apply meets_of_call (Document.known_of_introduces henv) hexpr hexpr' hnames (fun _ _ => rfl) rfl
      intro function definition hcalls _
      have hmem := (hcalls.introduced henv).1
      have htext := hkeeps.text_eq hmem hcalls.definition_eq
      have hargs : List.Forall₂ (visiting doc).expr args args := by
        rw [List.forall₂_same]
        exact fun arg harg => ⟨rfl, hpart ⟨_, hexpr, harg⟩⟩
      refine .function hcalls (hkeeps.calls henv hid hcalls) hargs rfl
        ⟨rfl, Document.visited_body hmem hcalls.definition_eq⟩
        (fun values => ⟨rfl, henv.bindAll _ values⟩) ?_ ?_
      · intro _
        rw [htext]
        rfl
      · rw [htext]
        exact Or.inr ⟨Nat.le_refl _, rfl⟩

theorem sound_visiting (h : doc.Walkable) (hacyclic : doc'.Acyclic) (hkeeps : doc.Keeps doc')
    (limit : ℕ) : (visiting doc).Sound doc doc' limit limit where
  acyclic := h.acyclic
  acyclic' := hacyclic
  limit_le := Nat.le_refl limit
  meets := by
    intro env env' id id' henv hid
    obtain ⟨rfl, henv⟩ := henv
    obtain ⟨rfl, hid⟩ := hid
    exact meets_visiting h hkeeps henv hid limit

end Simulation

/-- **The same code comes to the same outcome.** -/
theorem Document.Yields.of_keeps {doc doc' : Document} {env : Environment} {id : ExprId}
    {stack : CallStack} {outcome : Outcome} (hy : doc.Yields stack env id outcome)
    (h : doc.Walkable) (hacyclic : doc'.Acyclic) (hkeeps : doc.Keeps doc')
    (henv : env.Functions doc.Introduces) (hid : doc.Visited id) :
    doc'.Yields stack env id outcome := by
  have hsound := Simulation.sound_visiting h hacyclic hkeeps stack.limit
  obtain ⟨outcome', hy', hagree⟩ :=
    hsound.exists_yields (fun _ hexcused => hexcused) ⟨rfl, henv⟩ ⟨rfl, hid⟩ ⟨rfl, rfl, rfl⟩ hy
  rwa [hagree.eq] at hy'

end Reckon
