import Reckon.Document.Build

/-!
# What building does

A script builds a document step by step. This file says once what each step does, so that a property
of built documents is looked at step by step and not action by action.

* `Interner.internAll`: the names of several texts.
* `Document.introduce`: a document with one more definition.
* `Step.Effect`: what a step does, one rule for each kind of step.
* `Step.Refused`: what a step asks for is not there.
* `Step.apply_cases`: a step has its effect, or it is refused and changes nothing.
* `Document.built`: what a script builds; `Document.build_concat`: a script with one more step.
* `Document.build_induction`: a property of documents that each effect keeps.
-/

namespace Reckon

/-! ### Actions -/

/-- The names of texts in order, and the interner that holds them. -/
def Interner.internAll (interner : Interner) : List String → List Name × Interner
  | [] => ([], interner)
  | text :: texts =>
    let (name, next) := interner.intern text
    let (names, last) := next.internAll texts
    (name :: names, last)

/-- The document with one more definition, as a statement of its own. An expression is kept for the
body even if the body is another one. -/
def Document.introduce (doc : Document) (name : String) (params : List String)
    (body : ExprId) : Document :=
  let (name, next) := doc.interner.intern name
  let (params, last) := next.internAll params
  { doc with
    interner := last
    exprs := doc.exprs.push .error
    definitions := doc.definitions.push { name, params, body }
    statements := doc.statements.push (.definition ⟨doc.definitions.size⟩) }

namespace Builder

theorem intern_eq (text : String) (doc : Document) :
    intern text doc =
      .ok (doc.interner.intern text).1 { doc with interner := (doc.interner.intern text).2 } :=
  rfl

theorem addExpr_eq (expr : Expr) (doc : Document) :
    addExpr expr doc = .ok ⟨doc.exprs.size⟩ { doc with exprs := doc.exprs.push expr } :=
  rfl

theorem get_eq (doc : Document) : (get : Builder Document) doc = .ok doc doc :=
  rfl

theorem addParameter_of_le {doc : Document} {number : DefId}
    (h : doc.definitions.size ≤ number.index) (index : Nat) :
    addParameter number index doc =
      .error (.outOfRange doc.definitions.size number.index) doc := by
  simp only [addParameter, bind, EStateM.bind, get_eq, Document.definition,
    fetch_eq_error.2 ⟨h, rfl⟩]
  rfl

theorem addParameter_of_some {doc : Document} {number : DefId} {owner : Definition}
    (h : doc.definitions[number.index]? = some owner) (index : Nat) :
    addParameter number index doc =
      if index < owner.arity then
        addExpr (.call (some (.parameter number index)) []) doc
      else .error (.noParameter index) doc := by
  simp only [addParameter, bind, EStateM.bind, get_eq, Document.definition_eq_ok.2 h]
  show (if _ then _ else _ : Builder ExprId) doc = _
  split <;> rfl

theorem mapM_intern (texts : List String) (doc : Document) :
    texts.mapM intern doc =
      .ok (doc.interner.internAll texts).1
        { doc with interner := (doc.interner.internAll texts).2 } := by
  induction texts generalizing doc with
  | nil => rfl
  | cons text texts ih =>
    simp only [List.mapM_cons, bind, EStateM.bind, intern_eq, ih]
    rfl

theorem declare_eq (name : String) (params : List String) (doc : Document) :
    declare name params doc =
      .ok ⟨doc.definitions.size⟩ (doc.introduce name params ⟨doc.exprs.size⟩) := by
  simp only [declare, bind, EStateM.bind, intern_eq, mapM_intern, addExpr_eq]
  rfl

theorem setBody_of_lt {doc : Document} {number : DefId} (h : number.index < doc.definitions.size)
    (body : ExprId) :
    setBody number body doc = .ok ()
      { doc with definitions := doc.definitions.modify number.index ({ · with body }) } := by
  show (if _ then _ else _ : Builder Unit) doc = _
  rw [if_pos h]
  rfl

theorem setBody_of_le {doc : Document} {number : DefId} (h : doc.definitions.size ≤ number.index)
    (body : ExprId) :
    setBody number body doc = .error (.outOfRange doc.definitions.size number.index) doc := by
  show (if _ then _ else _ : Builder Unit) doc = _
  rw [if_neg (Nat.not_lt.2 h)]
  rfl

theorem modify_push {α : Type} (table : Array α) (a : α) (f : α → α) :
    (table.push a).modify table.size f = table.push (f a) := by
  apply Array.ext
  · simp
  · intro i hi hi'
    rw [Array.getElem_modify]
    grind

theorem define_eq (name : String) (params : List String) (body : ExprId) (doc : Document) :
    define name params body doc =
      .ok ⟨doc.definitions.size⟩ (doc.introduce name params body) := by
  have hlt : doc.definitions.size <
      (doc.introduce name params ⟨doc.exprs.size⟩).definitions.size := by
    simp [Document.introduce]
  have hbody := @setBody_of_lt (doc.introduce name params ⟨doc.exprs.size⟩)
    ⟨doc.definitions.size⟩ hlt body
  simp only [define, bind, EStateM.bind, declare_eq, hbody]
  simp only [Document.introduce, modify_push]
  rfl

end Builder

/-! ### Steps -/

namespace Step

/-- What a step that is not refused answers, and the document after it. -/
inductive Effect (doc : Document) : Step → Built → Document → Prop
  | addExpr (expr : Expr) :
      Effect doc (.addExpr expr) (.node ⟨.expr, doc.exprs.size⟩)
        { doc with exprs := doc.exprs.push expr }
  | addParameter {number : DefId} {owner : Definition} {index : Nat}
      (hd : doc.definitions[number.index]? = some owner) (hlt : index < owner.arity) :
      Effect doc (.addParameter number index) (.node ⟨.expr, doc.exprs.size⟩)
        { doc with exprs := doc.exprs.push (.call (some (.parameter number index)) []) }
  | declare (name : String) (params : List String) :
      Effect doc (.declare name params) (.node ⟨.definition, doc.definitions.size⟩)
        (doc.introduce name params ⟨doc.exprs.size⟩)
  | setBody {number : DefId} (hlt : number.index < doc.definitions.size) (body : ExprId) :
      Effect doc (.setBody number body) .done
        { doc with definitions := doc.definitions.modify number.index ({ · with body }) }
  | define (name : String) (params : List String) (body : ExprId) :
      Effect doc (.define name params body) (.node ⟨.definition, doc.definitions.size⟩)
        (doc.introduce name params body)
  | evaluate (expr : ExprId) (source : Option String) :
      Effect doc (.evaluate expr source) (.node ⟨.evaluation, doc.evaluations.size⟩)
        { doc with
          evaluations := doc.evaluations.push { expr, source }
          statements := doc.statements.push (.evaluation ⟨doc.evaluations.size⟩) }
  | addPerson (name : String) :
      Effect doc (.addPerson name) (.node ⟨.person, doc.persons.size⟩)
        { doc with persons := doc.persons.push { name } }
  | greet (person : Option PersonId) :
      Effect doc (.greet person) (.node ⟨.greeting, doc.greetings.size⟩)
        { doc with greetings := doc.greetings.push { person } }
  | intern (text : String) :
      Effect doc (.intern text) (.name (doc.interner.intern text).1)
        { doc with interner := (doc.interner.intern text).2 }

/-- The step asks for a definition, or for a parameter of a definition, that is not there. -/
def Refused (doc : Document) : Step → Prop
  | .addParameter number index =>
    ∀ owner, doc.definitions[number.index]? = some owner → owner.arity ≤ index
  | .setBody number _ => doc.definitions.size ≤ number.index
  | _ => False

theorem Effect.not_refused {step : Step} {doc next : Document} {built : Built}
    (h : step.Effect doc built next) : ¬ step.Refused doc := by
  cases h with
  | addParameter hd hlt => exact fun hrefused => absurd (hrefused _ hd) (Nat.not_le.2 hlt)
  | setBody hlt _ => exact Nat.not_le.2 hlt
  | addExpr | declare | define | evaluate | addPerson | greet | intern => exact id

theorem apply_of_ok {step : Step} {doc next : Document} {built : Built}
    (h : step.run doc = .ok built next) : step.apply doc = (.ok built, next) := by
  rw [apply, h]

theorem apply_of_error {step : Step} {doc next : Document} {fault : Fault}
    (h : step.run doc = .error fault next) : step.apply doc = (.error fault, next) := by
  rw [apply, h]

/-- **A step has its effect**, or it is refused and leaves the document as it was. -/
theorem apply_cases (step : Step) (doc : Document) :
    (∃ built next, step.apply doc = (.ok built, next) ∧ step.Effect doc built next) ∨
      ∃ fault, step.apply doc = (.error fault, doc) ∧ step.Refused doc := by
  cases step with
  | addExpr expr => exact Or.inl ⟨_, _, rfl, .addExpr expr⟩
  | addParameter number index =>
    cases hd : doc.definitions[number.index]? with
    | none =>
      have hle : doc.definitions.size ≤ number.index := Array.getElem?_eq_none_iff.1 hd
      refine Or.inr ⟨.outOfRange doc.definitions.size number.index, apply_of_error ?_, ?_⟩
      · have h := Builder.addParameter_of_le hle index
        simp only [run, bind, EStateM.bind, h]
      · intro owner howner
        rw [hd] at howner
        cases howner
    | some owner =>
      have h := Builder.addParameter_of_some hd index
      by_cases hlt : index < owner.arity
      · rw [if_pos hlt] at h
        refine Or.inl ⟨_, _, apply_of_ok ?_, .addParameter hd hlt⟩
        simp only [run, bind, EStateM.bind, h]
        rfl
      · rw [if_neg hlt] at h
        refine Or.inr ⟨.noParameter index, apply_of_error ?_, ?_⟩
        · simp only [run, bind, EStateM.bind, h]
        · intro other hother
          rw [hd] at hother
          cases hother
          exact Nat.not_lt.1 hlt
  | declare name params =>
    refine Or.inl ⟨_, _, apply_of_ok ?_, .declare name params⟩
    simp only [run, bind, EStateM.bind, Builder.declare_eq]
    rfl
  | setBody number body =>
    rcases Nat.lt_or_ge number.index doc.definitions.size with hlt | hle
    · refine Or.inl ⟨_, _, apply_of_ok ?_, .setBody hlt body⟩
      simp only [run, bind, EStateM.bind, Builder.setBody_of_lt hlt]
      rfl
    · refine Or.inr ⟨.outOfRange doc.definitions.size number.index, apply_of_error ?_, hle⟩
      simp only [run, bind, EStateM.bind, Builder.setBody_of_le hle]
  | define name params body =>
    refine Or.inl ⟨_, _, apply_of_ok ?_, .define name params body⟩
    simp only [run, bind, EStateM.bind, Builder.define_eq]
    rfl
  | evaluate expr source => exact Or.inl ⟨_, _, rfl, .evaluate expr source⟩
  | addPerson name => exact Or.inl ⟨_, _, rfl, .addPerson name⟩
  | greet person => exact Or.inl ⟨_, _, rfl, .greet person⟩
  | intern text => exact Or.inl ⟨_, _, rfl, .intern text⟩

theorem exists_effect {step : Step} {doc : Document} (h : ¬ step.Refused doc) :
    ∃ built next, step.apply doc = (.ok built, next) ∧ step.Effect doc built next := by
  obtain heffect | ⟨fault, -, hrefused⟩ := step.apply_cases doc
  · exact heffect
  · exact absurd hrefused h

theorem apply_of_refused {step : Step} {doc : Document} (h : step.Refused doc) :
    ∃ fault, step.apply doc = (.error fault, doc) := by
  obtain ⟨built, next, -, heffect⟩ | ⟨fault, happly, -⟩ := step.apply_cases doc
  · exact absurd h heffect.not_refused
  · exact ⟨fault, happly⟩

/-- A step answers with a fault exactly if it is refused. -/
theorem exists_fault_iff {step : Step} {doc : Document} :
    (∃ fault, (step.apply doc).1 = .error fault) ↔ step.Refused doc := by
  constructor
  · intro h
    obtain ⟨fault, hfault⟩ := h
    obtain ⟨built, next, happly, -⟩ | ⟨_, -, hrefused⟩ := step.apply_cases doc
    · rw [happly] at hfault
      cases hfault
    · exact hrefused
  · intro hrefused
    obtain ⟨fault, happly⟩ := apply_of_refused hrefused
    exact ⟨fault, by rw [happly]⟩

end Step

/-! ### Scripts -/

/-- The document that a script builds from nothing. -/
def Document.built (script : List Step) : Document :=
  (empty.build script).2

theorem Document.build_concat (doc : Document) (steps : List Step) (step : Step) :
    doc.build (steps ++ [step]) =
      ((doc.build steps).1 ++ [(step.apply (doc.build steps).2).1],
        (step.apply (doc.build steps).2).2) := by
  induction steps generalizing doc with
  | nil => rfl
  | cons first steps ih =>
    simp only [List.cons_append, build, ih]

theorem Document.build_append (doc : Document) (first second : List Step) :
    (doc.build (first ++ second)).2 = ((doc.build first).2.build second).2 := by
  induction first generalizing doc with
  | nil => rfl
  | cons step first ih => exact ih (step.apply doc).2

/-- What the effect of each step keeps, a script keeps. Steps that are refused change nothing. -/
theorem Document.build_induction {motive : Document → Prop} {steps : List Step}
    (hstep : ∀ step ∈ steps, ∀ {doc next : Document} {built : Built}, motive doc →
      step.Effect doc built next → motive next) {doc : Document} (h : motive doc) :
    motive (doc.build steps).2 := by
  induction steps generalizing doc with
  | nil => exact h
  | cons step steps ih =>
    have hnext : motive (step.apply doc).2 := by
      obtain ⟨built, next, happly, heffect⟩ | ⟨fault, happly, -⟩ := step.apply_cases doc
      · rw [happly]
        exact hstep step List.mem_cons_self h heffect
      · rw [happly]
        exact h
    exact ih (fun later hlater => hstep later (List.mem_cons_of_mem step hlater)) hnext

end Reckon
