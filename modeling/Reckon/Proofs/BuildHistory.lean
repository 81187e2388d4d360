import Reckon.Proofs.Growth
import Reckon.Proofs.Numbering

/-!
# What a script leaves behind

A document says nothing about the steps that built it, but all that is in it goes back to one of them.
This file reads a built document off its script: where each node got its index, what a definition is
called, and which of the bodies that it was given is its body.

* `Interner.Spells`: names have these texts.
* `Step.table?`, `Step.expr?`, `Step.heading?`: what a step adds to the tables.
* `Document.givenBodies`: the bodies that steps give to a definition. A definition that is there keeps
  everything but its body, and its body is the last of these (`getElem?_build`).
* `Document.Declares`: the step that declares a definition. There is one for every definition
  (`exists_declares`), and the definition is as it says (`Declares.exists_definition`).
* `Document.Recorded`, `built_recorded`: the law as a whole, for every script.
-/

namespace Reckon

/-! ### Texts of names -/

namespace Interner

variable {interner later : Interner} {names : List Name} {texts : List String}

/-- The names have these texts, in order. -/
def Spells (interner : Interner) (names : List Name) (texts : List String) : Prop :=
  List.Forall₂ (fun name text => interner.texts[name.index]? = some text) names texts

theorem spells_internAll (interner : Interner) (texts : List String) :
    (interner.internAll texts).2.Spells (interner.internAll texts).1 texts := by
  induction texts generalizing interner with
  | nil => exact .nil
  | cons text texts ih =>
    have hfirst := grows_internAll (interner.intern text).2 texts (interner.getElem?_intern text)
    exact .cons hfirst (ih (interner.intern text).2)

theorem Spells.grow (h : interner.Spells names texts) (hgrows : Grows interner.texts later.texts) :
    later.Spells names texts :=
  h.imp fun _ _ hget => hgrows hget

theorem Spells.map_text (h : interner.Spells names texts) : names.map interner.text = texts := by
  induction h with
  | nil => rfl
  | cons hget _ ih =>
    rw [List.map_cons, ih, Interner.text, hget]
    rfl

end Interner

/-! ### What a step adds -/

/-- The number of entries of a table. -/
def Document.count (doc : Document) : NodeKind → Nat
  | .expr => doc.exprs.size
  | .definition => doc.definitions.size
  | .evaluation => doc.evaluations.size
  | .person => doc.persons.size
  | .greeting => doc.greetings.size

namespace Step

variable {doc next : Document} {step : Step} {built : Built} {number : DefId}

/-- The table that a step adds the node to that it answers. -/
def table? : Step → Option NodeKind
  | .addExpr _ | .addParameter .. => some .expr
  | .declare .. | .define .. => some .definition
  | .evaluate .. => some .evaluation
  | .addPerson _ => some .person
  | .greet _ => some .greeting
  | .setBody .. | .intern _ => none

/-- The expression that a step adds. A declaration adds one to stand for the body. -/
def expr? : Step → Option Expr
  | .addExpr expr => some expr
  | .addParameter number index => some (.call (some (.parameter number index)) [])
  | .declare .. | .define .. => some .error
  | .setBody .. | .evaluate .. | .addPerson _ | .greet _ | .intern _ => none

/-- The name and the parameters that a step declares. -/
def heading? : Step → Option (String × List String)
  | .declare name params | .define name params _ => some (name, params)
  | _ => none

/-- The body that a step has given to a definition, by its answer. -/
def givenBody? (number : DefId) : Step → Except Fault Built → Option ExprId
  | .setBody other body, .ok _ => if other = number then some body else none
  | .define _ _ body, .ok built => if built = .node number.node then some body else none
  | _, _ => none

/-- A node that is added gets the next index of its table. -/
theorem Effect.next_index {kind : NodeKind} (h : step.Effect doc built next)
    (hkind : step.table? = some kind) :
    built = .node ⟨kind, doc.count kind⟩ ∧ next.count kind = doc.count kind + 1 := by
  cases h with
  | addExpr | addParameter | declare | define | evaluate | addPerson | greet =>
    cases hkind
    exact ⟨rfl, by simp [Document.count, Document.introduce]⟩
  | setBody | intern => cases hkind

theorem Effect.getElem?_exprs {expr : Expr} (h : step.Effect doc built next)
    (hexpr : step.expr? = some expr) : next.exprs[doc.exprs.size]? = some expr := by
  cases h with
  | addExpr | addParameter | declare | define =>
    cases hexpr
    exact Array.getElem?_push_size
  | setBody | evaluate | addPerson | greet | intern => cases hexpr

/-- Definitions are added by declarations only, one at a time. -/
theorem Effect.definitions_cases (h : step.Effect doc built next) :
    next.definitions.size = doc.definitions.size ∨
      next.definitions.size = doc.definitions.size + 1 ∧
        ∃ name params, step.heading? = some (name, params) := by
  cases h with
  | declare name params => exact Or.inr ⟨Array.size_push _, name, params, rfl⟩
  | define name params body => exact Or.inr ⟨Array.size_push _, name, params, rfl⟩
  | setBody => exact Or.inl Array.size_modify
  | addExpr | addParameter | evaluate | addPerson | greet | intern => exact Or.inl rfl

theorem size_definitions_le (step : Step) (doc : Document) :
    doc.definitions.size ≤ (step.apply doc).2.definitions.size := by
  obtain ⟨built, next, happly, heffect⟩ | ⟨fault, happly, -⟩ := step.apply_cases doc
  · rw [happly]
    rcases heffect.definitions_cases with hsize | ⟨hsize, -⟩
    · exact Nat.le_of_eq hsize.symm
    · show doc.definitions.size ≤ next.definitions.size
      omega
  · rw [happly]

/-- A body is given only to definitions that are there afterwards. -/
theorem givenBody?_eq_none (h : (step.apply doc).2.definitions.size ≤ number.index) :
    step.givenBody? number (step.apply doc).1 = none := by
  obtain ⟨built, next, happly, heffect⟩ | ⟨fault, happly, -⟩ := step.apply_cases doc
  · rw [happly] at h ⊢
    cases heffect with
    | setBody hlt body =>
      rw [Array.size_modify] at h
      refine if_neg fun heq => ?_
      rw [heq] at hlt
      omega
    | define name params body =>
      have hsize : doc.definitions.size + 1 ≤ number.index := by
        simpa [Document.introduce] using h
      refine if_neg fun heq => ?_
      have hindex : doc.definitions.size = number.index := congrArg Node.index (Built.node.inj heq)
      omega
    | addExpr | addParameter | declare | evaluate | addPerson | greet | intern => rfl
  · rw [happly]
    cases step <;> rfl

/-- **A definition that is there keeps its name and its parameters**, and it keeps its body unless the
step gives it another one. -/
theorem getElem?_apply {definition : Definition} (step : Step)
    (hd : doc.definitions[number.index]? = some definition) :
    (step.apply doc).2.definitions[number.index]? = some { definition with
      body := (step.givenBody? number (step.apply doc).1).getD definition.body } := by
  have hlt : number.index < doc.definitions.size := (Array.getElem?_eq_some_iff.1 hd).1
  have hpush : ∀ other, (doc.definitions.push other)[number.index]? = some definition :=
    fun other => (Grows.refl doc.definitions).push other hd
  obtain ⟨built, next, happly, heffect⟩ | ⟨fault, happly, -⟩ := step.apply_cases doc
  · rw [happly]
    cases heffect with
    | setBody _ body =>
      rename_i other _
      show (doc.definitions.modify other.index _)[number.index]? = _
      rw [Array.getElem?_modify, hd]
      by_cases heq : other = number
      · simp [givenBody?, heq]
      · have hne : other.index ≠ number.index := fun hindex => heq (by cases other; cases hindex; rfl)
        simp [givenBody?, heq, hne]
    | define name params body =>
      have hne : (⟨.definition, doc.definitions.size⟩ : Node) ≠ number.node := by
        intro heq
        have hindex : doc.definitions.size = number.index := congrArg Node.index heq
        omega
      simp only [givenBody?, Built.node.injEq, if_neg hne]
      exact hpush _
    | declare => exact hpush _
    | addExpr | addParameter | evaluate | addPerson | greet | intern => exact hd
  · rw [happly, hd]
    cases step <;> rfl

end Step

/-! ### What a script does to a definition -/

namespace Document

variable {doc : Document} {script before after : List Step} {step : Step} {number : DefId}
  {definition : Definition} {name : String} {params : List String}

/-- The bodies that steps give to a definition, in order. Steps that are refused give none. -/
def givenBodies (doc : Document) (number : DefId) : List Step → List ExprId
  | [] => []
  | step :: steps =>
    let (answer, next) := step.apply doc
    (step.givenBody? number answer).toList ++ next.givenBodies number steps

theorem givenBodies_append (doc : Document) (number : DefId) (first second : List Step) :
    doc.givenBodies number (first ++ second) =
      doc.givenBodies number first ++ (doc.build first).2.givenBodies number second := by
  induction first generalizing doc with
  | nil => rfl
  | cons step first ih =>
    show _ ++ (step.apply doc).2.givenBodies number (first ++ second) = _
    rw [ih, ← List.append_assoc]
    rfl

/-- Of a body given at first and bodies given later, the last one counts. -/
theorem getLast?_toList_append {α : Type} (first : Option α) (later : List α) (default : α) :
    (first.toList ++ later).getLast?.getD default = later.getLast?.getD (first.getD default) := by
  cases first with
  | none => rfl
  | some a => simp [List.getLast?_cons]

theorem size_definitions_le_build (doc : Document) (steps : List Step) :
    doc.definitions.size ≤ (doc.build steps).2.definitions.size := by
  induction steps generalizing doc with
  | nil => exact Nat.le_refl _
  | cons step steps ih => exact (step.size_definitions_le doc).trans (ih (step.apply doc).2)

/-- As long as a definition is not there, no body is given to it. -/
theorem givenBodies_eq_nil {steps : List Step}
    (h : (doc.build steps).2.definitions.size ≤ number.index) : doc.givenBodies number steps = [] := by
  induction steps generalizing doc with
  | nil => rfl
  | cons step steps ih =>
    have hnext := (step.apply doc).2.size_definitions_le_build steps
    have hlater : (step.apply doc).2.givenBodies number steps = [] := ih h
    show (step.givenBody? number (step.apply doc).1).toList ++
      (step.apply doc).2.givenBodies number steps = []
    rw [hlater, Step.givenBody?_eq_none (hnext.trans h)]
    rfl

/-- **The body of a definition is the last one that it was given.** Its name and its parameters stay. -/
theorem getElem?_build (steps : List Step) (hd : doc.definitions[number.index]? = some definition) :
    (doc.build steps).2.definitions[number.index]? = some { definition with
      body := (doc.givenBodies number steps).getLast?.getD definition.body } := by
  induction steps generalizing doc definition with
  | nil => exact hd
  | cons step steps ih =>
    show ((step.apply doc).2.build steps).2.definitions[number.index]? = _
    rw [ih (step.getElem?_apply hd), givenBodies, getLast?_toList_append]

/-- Expressions and texts stay, whatever the steps do to definitions. -/
theorem continues_build_expressions (doc : Document) (steps : List Step) :
    ({ doc with definitions := #[] } : Document).Continues (doc.build steps).2 := by
  apply build_induction (motive := ({ doc with definitions := #[] } : Document).Continues)
  · intro step _ earlier next built h heffect
    apply h.of_effect heffect
    cases step with
    | setBody => exact Nat.zero_le _
    | addExpr | addParameter | declare | define | evaluate | addPerson | greet | intern => trivial
  · refine ⟨Grows.refl _, Grows.refl _, ?_, Grows.refl _, Grows.refl _⟩
    intro i definition hget
    simp at hget

theorem built_append (before after : List Step) :
    built (before ++ after) = ((built before).build after).2 :=
  build_append empty before after

theorem built_concat (before : List Step) (step : Step) :
    built (before ++ [step]) = (step.apply (built before)).2 :=
  built_append before [step]

theorem getElem?_exprs_append {id : ExprId} {expr : Expr} (after : List Step)
    (h : (built before).exprs[id.index]? = some expr) :
    (built (before ++ after)).exprs[id.index]? = some expr := by
  rw [built_append]
  exact (continues_build_expressions (built before) after).exprs h

/-! ### Declarations -/

/-- The step after `before` declares the definition, under this name and with these parameters. -/
def Declares (script before : List Step) (number : DefId) (name : String)
    (params : List String) : Prop :=
  ∃ step after, script = before ++ step :: after ∧ step.heading? = some (name, params) ∧
    (built before).definitions.size = number.index

theorem Declares.append (h : Declares script before number name params) (later : List Step) :
    Declares (script ++ later) before number name params := by
  obtain ⟨step, after, rfl, hheading, hsize⟩ := h
  refine ⟨step, after ++ later, ?_, hheading, hsize⟩
  rw [List.append_assoc, List.cons_append]

/-- Every definition goes back to a declaration. -/
theorem exists_declares (script : List Step) (h : number.index < (built script).definitions.size) :
    ∃ before name params, Declares script before number name params := by
  induction script using List.reverseRecOn with
  | nil => exact absurd h (Nat.not_lt_zero _)
  | append_singleton script step ih =>
    by_cases hlt : number.index < (built script).definitions.size
    · obtain ⟨before, name, params, hdeclares⟩ := ih hlt
      exact ⟨before, name, params, hdeclares.append [step]⟩
    · -- the last step has added the definition
      rw [built_concat] at h
      obtain ⟨answer, next, happly, heffect⟩ | ⟨fault, happly, -⟩ := step.apply_cases (built script)
      · rw [happly] at h
        replace h : number.index < next.definitions.size := h
        rcases heffect.definitions_cases with hsize | ⟨hsize, name, params, hheading⟩
        · omega
        · exact ⟨script, name, params, step, [], rfl, hheading, by omega⟩
      · rw [happly] at h
        exact absurd h hlt

/-- What a declaration adds. The name and the parameters are spelled as declared, and the body is the one
that is given along with them or else the expression that is kept for it. -/
theorem exists_introduced (doc : Document) (hheading : step.heading? = some (name, params)) :
    ∃ definition,
      (step.apply doc).2.definitions[doc.definitions.size]? = some definition ∧
      (step.apply doc).2.interner.Spells (definition.name :: definition.params) (name :: params) ∧
      definition.body =
        (step.givenBody? ⟨doc.definitions.size⟩ (step.apply doc).1).getD ⟨doc.exprs.size⟩ := by
  have hspells := doc.interner.spells_internAll (name :: params)
  have hrefused : ¬ step.Refused doc := by
    cases step with
    | declare | define => exact id
    | addExpr | addParameter | setBody | evaluate | addPerson | greet | intern => cases hheading
  obtain ⟨answer, next, happly, heffect⟩ := Step.exists_effect hrefused
  rw [happly]
  cases heffect with
  | declare name params =>
    cases hheading
    exact ⟨_, Array.getElem?_push_size, hspells, rfl⟩
  | define name params body =>
    cases hheading
    refine ⟨_, Array.getElem?_push_size, hspells, ?_⟩
    simp [Step.givenBody?, NodeId.node]
  | addExpr | addParameter | setBody | evaluate | addPerson | greet | intern => cases hheading

/-- **A definition is as its declaration says**, in every document that is built from there. Its body is
the last one that the script has given it, or else the expression that was kept for it. -/
theorem Declares.exists_definition (h : Declares script before number name params) :
    ∃ definition, (built script).definitions[number.index]? = some definition ∧
      (built script).text definition.name = name ∧
      definition.params.map (built script).text = params ∧
      definition.body =
        (empty.givenBodies number script).getLast?.getD ⟨(built before).exprs.size⟩ := by
  obtain ⟨step, after, rfl, hheading, hsize⟩ := h
  obtain ⟨definition, hd, hspells, hbody⟩ := exists_introduced (built before) hheading
  obtain rfl : number = ⟨(built before).definitions.size⟩ := by rw [hsize]
  -- from the declaration on, only the body can change
  have hlater := getElem?_build after hd
  have hspelled := hspells.grow (continues_build_expressions (step.apply (built before)).2 after).texts
  have htexts := hspelled.map_text
  rw [List.map_cons] at htexts
  injection htexts with hname hparams
  have hbefore : empty.givenBodies ⟨(built before).definitions.size⟩ before = [] :=
    givenBodies_eq_nil (Nat.le_refl _)
  rw [built_append]
  refine ⟨_, hlater, hname, hparams, ?_⟩
  rw [givenBodies_append, hbefore, List.nil_append, hbody]
  exact (getLast?_toList_append _ _ _).symm

/-- A parameter that a step could mention is one of those declared, and its name stays. -/
theorem exists_parameter {index : ℕ}
    (h : ¬ (Step.addParameter number index).Refused (built before)) (after : List Step) :
    ∃ earlier name params text resolved, Declares before earlier number name params ∧
      params[index]? = some text ∧
      (built (before ++ after)).targetName? (.parameter number index) = some resolved ∧
      (built (before ++ after)).text resolved = text := by
  have hex : ∃ owner, (built before).definitions[number.index]? = some owner ∧ index < owner.arity := by
    by_contra hnone
    apply h
    intro owner howner
    by_contra hlt
    exact hnone ⟨owner, howner, Nat.not_le.1 hlt⟩
  obtain ⟨owner, howner, hindex⟩ := hex
  have hnumber : number.index < (built before).definitions.size :=
    (Array.getElem?_eq_some_iff.1 howner).1
  obtain ⟨earlier, name, params, hdeclares⟩ := exists_declares before hnumber
  obtain ⟨definition, hd, -, hparams, -⟩ := (hdeclares.append after).exists_definition
  have hlater := getElem?_build after howner
  rw [← built_append, hd] at hlater
  have hlength : index < definition.params.length := by
    rw [Option.some.inj hlater]
    exact hindex
  refine ⟨earlier, name, params, _, definition.params[index], hdeclares, ?_, ?_, rfl⟩
  · rw [← hparams, List.getElem?_map, List.getElem?_eq_getElem hlength, Option.map_some]
  · rw [targetName?, definition?, hd, Option.bind_some, List.getElem?_eq_getElem hlength]

theorem getElem?_answers (before : List Step) (step : Step) (after : List Step) (doc : Document) :
    (doc.build (before ++ step :: after)).1[before.length]? =
      some (step.apply (doc.build before).2).1 := by
  induction before generalizing doc with
  | nil => rfl
  | cons first before ih => exact ih (first.apply doc).2

/-! ### Scripts and what they build -/

/-- What the step after `before` has done, and what is left of it where the script ends. -/
structure StepRecorded (script before : List Step) (step : Step) : Prop where
  /-- Its answer is the one that it gives on the document built before it. -/
  answer_eq : (empty.build script).1[before.length]? = some (step.apply (built before)).1
  /-- It is refused if what it asks for is not there, and for no other reason, -/
  refused_iff : (∃ fault, (step.apply (built before)).1 = .error fault) ↔ step.Refused (built before)
  /-- and then it leaves the document as it was. -/
  unchanged : step.Refused (built before) → built (before ++ [step]) = built before
  /-- A node that it adds gets the next index of its table. -/
  next_index : ¬ step.Refused (built before) → ∀ kind, step.table? = some kind →
    (step.apply (built before)).1 = .ok (.node ⟨kind, (built before).count kind⟩) ∧
      (built (before ++ [step])).count kind = (built before).count kind + 1
  /-- An expression that it adds is there in the end. -/
  expr_eq : ¬ step.Refused (built before) → ∀ expr, step.expr? = some expr →
    (built script).exprs[(built before).exprs.size]? = some expr
  /-- A mention of a parameter that it adds goes by the name declared in that place. -/
  parameter_eq : ¬ step.Refused (built before) → ∀ number index, step = .addParameter number index →
    ∃ earlier name params text resolved, Declares before earlier number name params ∧
      params[index]? = some text ∧
      (built script).targetName? (.parameter number index) = some resolved ∧
      (built script).text resolved = text
  /-- No expression changes from there on, -/
  expr_kept : ∀ (id : ExprId) (expr : Expr), (built before).exprs[id.index]? = some expr →
    (built script).exprs[id.index]? = some expr
  /-- nor does a definition, except for its body. -/
  heading_kept : ∀ (number : DefId) (definition : Definition),
    (built before).definitions[number.index]? = some definition →
    ∃ later, (built script).definitions[number.index]? = some later ∧
      later.name = definition.name ∧ later.params = definition.params

/-- How a script and the document that it builds fit together. -/
structure Recorded (script : List Step) : Prop where
  /-- The statements go through the definitions and through the evaluations in order. -/
  numbered : (built script).Numbered
  step : ∀ before step after, script = before ++ step :: after → StepRecorded script before step
  /-- Every definition was declared, -/
  declared : ∀ number : DefId, number.index < (built script).definitions.size →
    ∃ before name params, Declares script before number name params
  /-- and it has the name and the parameters of its declaration. Its body is the last one that it was
  given, or the error expression that was kept for it then. -/
  definition_eq : ∀ before number name params, Declares script before number name params →
    (built script).exprs[(built before).exprs.size]? = some .error ∧
    ∃ definition, (built script).definitions[number.index]? = some definition ∧
      (built script).text definition.name = name ∧
      definition.params.map (built script).text = params ∧
      definition.body = (empty.givenBodies number script).getLast?.getD ⟨(built before).exprs.size⟩

theorem stepRecorded (before : List Step) (step : Step) (after : List Step) :
    StepRecorded (before ++ step :: after) before step := by
  refine ⟨getElem?_answers before step after empty, Step.exists_fault_iff, ?_, ?_, ?_, ?_,
    fun _ _ hexpr => getElem?_exprs_append (step :: after) hexpr, ?_⟩
  · intro hrefused
    obtain ⟨fault, happly⟩ := Step.apply_of_refused hrefused
    rw [built_concat, happly]
  · intro hrefused kind hkind
    obtain ⟨answer, next, happly, heffect⟩ := Step.exists_effect hrefused
    obtain ⟨rfl, hcount⟩ := heffect.next_index hkind
    rw [built_concat, happly]
    exact ⟨rfl, hcount⟩
  · intro hrefused expr hexpr
    obtain ⟨answer, next, happly, heffect⟩ := Step.exists_effect hrefused
    have hadded : (built (before ++ [step])).exprs[(built before).exprs.size]? = some expr := by
      rw [built_concat, happly]
      exact heffect.getElem?_exprs hexpr
    rw [← List.singleton_append, ← List.append_assoc]
    exact @getElem?_exprs_append _ ⟨(built before).exprs.size⟩ expr after hadded
  · intro hrefused number index hstep
    subst hstep
    exact exists_parameter hrefused _
  · intro number definition hd
    rw [built_append]
    exact ⟨_, getElem?_build (step :: after) hd, rfl, rfl⟩

/-- **A built document is what its script says.** Whatever the steps, and whether or not some of them are
refused:

* A step that adds a node answers the next index of the table, and the statements go through definitions
  and evaluations in this order. A step is refused only if it asks for a definition or a parameter that
  is not there, and it changes nothing then.
* An expression never changes, and neither do the name and the parameters of a definition. Their texts
  are those of the declaration. Where a parameter is mentioned, the mention goes by the name that was
  declared in its place.
* The body of a definition is the last one that a step has given it. If there is none, it is the error
  expression that its declaration has kept for it. -/
theorem built_recorded (script : List Step) : Recorded script where
  numbered := numbered_built script
  step := by
    intro before step after hscript
    subst hscript
    exact stepRecorded before step after
  declared number hnumber := exists_declares script hnumber
  definition_eq := by
    intro before number name params hdeclares
    refine ⟨?_, hdeclares.exists_definition⟩
    obtain ⟨step, after, rfl, hheading, -⟩ := hdeclares
    have hstep := stepRecorded before step after
    cases step with
    | declare | define => exact hstep.expr_eq id .error rfl
    | addExpr | addParameter | setBody | evaluate | addPerson | greet | intern => cases hheading

/-- The name `x` belongs to a parameter and to a variable, which is given a body before it is there. -/
example :
    let script : List Step := [
      .declare "f" ["x", "f"],
      .setBody ⟨1⟩ ⟨0⟩,
      .define "x" [] ⟨0⟩,
      .addParameter ⟨0⟩ 1,
      .setBody ⟨0⟩ ⟨2⟩]
    empty.givenBodies ⟨0⟩ script = [⟨2⟩] ∧ empty.givenBodies ⟨1⟩ script = [⟨0⟩] ∧
      (built script).definitions = #[⟨⟨1⟩, [⟨2⟩, ⟨1⟩], ⟨2⟩⟩, ⟨⟨2⟩, [], ⟨0⟩⟩] := by
  decide +kernel

end Document

end Reckon
