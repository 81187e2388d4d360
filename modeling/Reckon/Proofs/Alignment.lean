import Reckon.Proofs.CallRanks

/-!
# Documents over one table of expressions

Two documents may have their expressions in common and differ in their definitions. This file compares
their runs. What has to be said for that is how the names of calls and the environments correspond, and
that a call finds functions with the same body in both documents.

* `Alignment`: what corresponds in the two documents. It makes a simulation (`Alignment.sound`), so that
  expressions and statements come to outcomes that agree (`Alignment.exists_yields`,
  `Alignment.exists_computes`).
* `Runs.exists_related`: what every statement keeps of a relation between two passes, the passes keep.
-/

namespace Reckon

/-! ### Alignments -/

/-- What corresponds in two documents that have their expressions in common. -/
structure Alignment (doc doc' : Document) where
  /-- The name in the second document for a name in the first. -/
  name : Name → Name
  env : Environment → Environment → Prop
  error : EvalError → EvalError → Prop
  exprs_eq : doc'.exprs = doc.exprs
  targetName?_eq : ∀ target, doc'.targetName? target = (doc.targetName? target).map name
  known : ∀ {e e' : Environment}, env e e' → e.Known doc
  /-- Names that calls go by stand for the same. -/
  lookup_eq : ∀ {e e' : Environment} {call : ExprId} {called : Name}, env e e' →
    doc.calledName? call = some called → e'.lookup (name called) = e.lookup called
  /-- A function that is called has a counterpart, with the same body. -/
  function : ∀ {e e' : Environment} {call : ExprId} {function : DefId} {definition : Definition}
    {args : List ExprId}, env e e' → doc.Calls e call function definition args →
    ∃ definition', doc'.definitions[function.index]? = some definition' ∧
      definition'.arity = definition.arity ∧ definition'.body = definition.body ∧
      (∀ values, env (e.bindAll definition.params values) (e'.bindAll definition'.params values)) ∧
      (∀ got, error
        (.arityMismatch (doc.text definition.name) function call definition.arity got)
        (.arityMismatch (doc'.text definition'.name) function call definition'.arity got)) ∧
      ∀ limit, error (.recursionLimit (doc.text definition.name) call limit)
        (.recursionLimit (doc'.text definition'.name) call limit)
  refl : ∀ failure, error failure failure

namespace Alignment

variable {doc doc' : Document} {env env' : Environment} {id : ExprId} {stack : CallStack}
  {outcome : Outcome} {statement : Statement}

/-- Every expression of the table corresponds to itself. -/
def simulation (a : Alignment doc doc') : Simulation where
  env := a.env
  expr := fun id id' => id' = id ∧ id.index < doc.exprs.size
  error := a.error
  excused := fun _ => False

/-- At a call, both evaluations find no name, or the same binding, or functions with the same body. -/
theorem meets_call {target : Option CallTarget} {args : List ExprId} (a : Alignment doc doc')
    (h : doc.WellFormed) (henv : a.env env env')
    (hexpr : doc.exprs[id.index]? = some (.call target args)) (limit : ℕ) :
    a.simulation.Meets doc doc' limit limit env env' id id := by
  have hexpr' : doc'.exprs[id.index]? = some (.call target args) := by rwa [a.exprs_eq]
  have hnames : target.bind doc'.targetName? = (target.bind doc.targetName?).map a.name := by
    cases target with
    | none => rfl
    | some target => exact a.targetName?_eq target
  have hlookup : ∀ called, target.bind doc.targetName? = some called →
      env'.lookup (a.name called) = env.lookup called := by
    intro called hcalled
    have hcall : doc.calledName? id = some called := by
      rw [Document.calledName?, hexpr]
      exact hcalled
    exact a.lookup_eq henv hcall
  apply Simulation.meets_of_call (a.known henv) hexpr hexpr' hnames hlookup (a.refl _)
  intro function definition hcalls hcalls'
  obtain ⟨definition', hd', harity, hbody, hbind, hmismatch, hfull⟩ := a.function henv hcalls
  have hargs : List.Forall₂ a.simulation.expr args args := by
    rw [List.forall₂_same]
    exact fun arg harg => ⟨rfl, h.child_lt ⟨_, hexpr, harg⟩⟩
  have hroot : doc.IsRoot definition.body :=
    Or.inl ⟨definition, Array.mem_of_getElem? hcalls.definition_eq, rfl⟩
  exact .function hcalls (hcalls' hd') hargs harity.symm ⟨hbody, h.root_lt hroot⟩ hbind
    (fun _ => hmismatch args.length) (Or.inr ⟨Nat.le_refl limit, hfull limit⟩)

theorem sound (a : Alignment doc doc') (h : doc.WellFormed) (limit : ℕ) :
    a.simulation.Sound doc doc' limit limit where
  acyclic := h.acyclic
  acyclic' := Document.Acyclic.of_exprs_eq h.acyclic a.exprs_eq
  limit_le := Nat.le_refl limit
  meets := by
    intro env env' id id' henv hid
    obtain ⟨rfl, hlt⟩ := hid
    have hexpr : doc.exprs[id'.index]? = some doc.exprs[id'.index] :=
      Array.getElem?_eq_getElem hlt
    have hexpr' : doc'.exprs[id'.index]? = some doc.exprs[id'.index] := by rwa [a.exprs_eq]
    cases hkind : doc.exprs[id'.index] with
    | number value =>
      rw [hkind] at hexpr hexpr'
      exact .number value hexpr hexpr'
    | error =>
      rw [hkind] at hexpr hexpr'
      exact .unreadable hexpr hexpr'
    | binary op left right =>
      rw [hkind] at hexpr hexpr'
      exact .binary op hexpr hexpr' ⟨rfl, h.child_lt (Document.child_left hexpr)⟩
        ⟨rfl, h.child_lt (Document.child_right hexpr)⟩
    | call target args =>
      rw [hkind] at hexpr
      exact a.meets_call h henv hexpr limit

/-- An expression comes to outcomes that agree. -/
theorem exists_yields (a : Alignment doc doc') (h : doc.WellFormed) (henv : a.env env env')
    (hid : id.index < doc.exprs.size) (hy : doc.Yields stack env id outcome) :
    ∃ outcome', doc'.Yields stack env' id outcome' ∧ outcome.Agree a.error outcome' :=
  (a.sound h stack.limit).exists_yields (fun _ hexcused => hexcused) henv ⟨rfl, hid⟩ ⟨rfl, rfl, rfl⟩ hy

/-- A statement comes to outcomes that agree. If it is a definition, the body has to be the same in both
documents. -/
theorem exists_computes (a : Alignment doc doc') (h : doc.WellFormed) (henv : a.env env env')
    (hc : doc.Computes stack env statement outcome) (hevaluations : doc'.evaluations = doc.evaluations)
    (hdefinition : ∀ {number : DefId} {definition : Definition}, statement = .definition number →
      doc.definitions[number.index]? = some definition →
      ∃ definition', doc'.definitions[number.index]? = some definition' ∧
        definition'.isFunction = definition.isFunction ∧ definition'.body = definition.body) :
    ∃ outcome', doc'.Computes stack env' statement outcome' ∧ outcome.Agree a.error outcome' := by
  cases hc with
  | function hd hf =>
    obtain ⟨definition', hd', hf', -⟩ := hdefinition rfl hd
    exact ⟨.ok none, .function hd' (hf'.trans hf), .value none⟩
  | assignment hd hf hy =>
    obtain ⟨definition', hd', hf', hbody⟩ := hdefinition rfl hd
    have hroot := h.root_lt (Or.inl ⟨_, Array.mem_of_getElem? hd, rfl⟩)
    obtain ⟨outcome', hy', hagree⟩ := a.exists_yields h henv hroot hy
    rw [← hbody] at hy'
    exact ⟨outcome', .assignment hd' (hf'.trans hf) hy', hagree⟩
  | evaluation he hy =>
    have hroot := h.root_lt (Or.inr ⟨_, Array.mem_of_getElem? he, rfl⟩)
    obtain ⟨outcome', hy', hagree⟩ := a.exists_yields h henv hroot hy
    rw [← hevaluations] at he
    exact ⟨outcome', .evaluation he hy', hagree⟩

end Alignment

/-! ### Two passes side by side -/

/-- A relation between two passes that holds at the start and is kept by every statement holds at the
end. The second document has to come to an outcome that the policy goes on after. -/
theorem Document.Runs.exists_related {doc doc' : Document} {policy : ErrorPolicy} {stack : CallStack}
    {statements : List Statement} {pass : Pass} (related : Pass → Pass → Prop)
    (hruns : doc.Runs policy stack statements pass) (hstart : related {} {})
    (hstep : ∀ {before : List Statement} {statement : Statement} {earlier earlier' : Pass}
      {outcome : Outcome}, (∀ s ∈ before ++ [statement], s ∈ statements) →
      doc.Runs policy stack before earlier → doc'.Runs policy stack before earlier' →
      related earlier earlier' → doc.Computes stack earlier.env statement outcome →
      policy.Admits outcome →
      ∃ outcome', doc'.Computes stack earlier'.env statement outcome' ∧ policy.Admits outcome' ∧
        related (doc.settle earlier statement outcome) (doc'.settle earlier' statement outcome')) :
    ∃ pass', doc'.Runs policy stack statements pass' ∧ related pass pass' := by
  induction hruns with
  | nil => exact ⟨{}, .nil, hstart⟩
  | @concat statements earlier statement outcome hearlier hc ha ih =>
    obtain ⟨earlier', hearlier', hrelated⟩ := ih fun hmem =>
      hstep fun s hs => List.mem_append_left _ (hmem s hs)
    obtain ⟨outcome', hc', ha', hnext⟩ :=
      hstep (fun s hs => hs) hearlier hearlier' hrelated hc ha
    exact ⟨_, hearlier'.concat hc' ha', hnext⟩

end Reckon
