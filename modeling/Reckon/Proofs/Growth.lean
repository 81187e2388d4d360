import Reckon.Proofs.Building

/-!
# Documents grow

A step of a script adds to the tables of the document and to the texts of its names. The one thing that
a step can change is the body of a definition. This file shows that everything else stays in its place
through any number of steps.

* `Grows`: a table has all that another has, in the same places.
* `Interner.grows_intern`, `Interner.grows_internAll`: texts stay with their names.
* `Document.Continues`: all tables of a document have grown. Each step keeps this
  (`Continues.of_effect`) and so does a script (`continues_build`), as long as `Step.Spares` says that it
  gives no definition of the document another body.
* `Document.Named`: the names of definitions have texts, as they do in every document that a script
  builds (`named_built`).
-/

namespace Reckon

/-! ### Tables -/

/-- What stands in the first table stands in the second, in the same place. -/
def Grows {α : Type} (earlier later : Array α) : Prop :=
  ∀ ⦃i : Nat⦄ ⦃a : α⦄, earlier[i]? = some a → later[i]? = some a

namespace Grows

variable {α : Type} {first second third : Array α}

theorem refl (table : Array α) : Grows table table :=
  fun _ _ h => h

theorem trans (h : Grows first second) (h' : Grows second third) : Grows first third :=
  fun _ _ hget => h' (h hget)

theorem push (h : Grows first second) (a : α) : Grows first (second.push a) := by
  intro i b hget
  have hlt := (Array.getElem?_eq_some_iff.1 (h hget)).1
  rw [Array.getElem?_push, if_neg (Nat.ne_of_lt hlt)]
  exact h hget

/-- A change beyond the first table does not count. -/
theorem modify (h : Grows first second) {index : Nat} (hle : first.size ≤ index) (f : α → α) :
    Grows first (second.modify index f) := by
  intro i a hget
  have hlt := (Array.getElem?_eq_some_iff.1 hget).1
  rw [Array.getElem?_modify, if_neg (by omega)]
  exact h hget

theorem toList_prefix (h : Grows first second) : first.toList <+: second.toList := by
  rw [List.prefix_iff_getElem?]
  intro i hi
  rw [Array.getElem?_toList]
  exact h (by simp)

end Grows

/-! ### Names and texts -/

namespace Interner

theorem getElem?_intern (interner : Interner) (text : String) :
    (interner.intern text).2.texts[(interner.intern text).1.index]? = some text := by
  cases h : interner.find? text with
  | some name =>
    rw [intern_of_some h]
    exact find?_eq_some.1 h
  | none =>
    rw [intern_of_none h]
    simp [push, size]

theorem grows_intern (interner : Interner) (text : String) :
    Grows interner.texts (interner.intern text).2.texts := by
  cases h : interner.find? text with
  | some name =>
    rw [intern_of_some h]
    exact Grows.refl _
  | none =>
    rw [intern_of_none h]
    exact (Grows.refl _).push text

theorem grows_internAll (interner : Interner) (texts : List String) :
    Grows interner.texts (interner.internAll texts).2.texts := by
  induction texts generalizing interner with
  | nil => exact Grows.refl _
  | cons text texts ih => exact (interner.grows_intern text).trans (ih _)

theorem text_eq_of_grows {interner later : Interner} (h : Grows interner.texts later.texts)
    {name : Name} {text : String} (hget : interner.texts[name.index]? = some text) :
    later.text name = interner.text name := by
  rw [Interner.text, Interner.text, hget, h hget]

end Interner

/-! ### Documents -/

/-- The step gives no definition of the document another body. -/
def Step.Spares (doc : Document) : Step → Prop
  | .setBody number _ => doc.definitions.size ≤ number.index
  | _ => True

namespace Document

variable {doc earlier next : Document} {step : Step} {built : Built}

/-- The second document has all that the first one has, in the same places. -/
structure Continues (doc next : Document) : Prop where
  texts : Grows doc.interner.texts next.interner.texts
  exprs : Grows doc.exprs next.exprs
  definitions : Grows doc.definitions next.definitions
  evaluations : Grows doc.evaluations next.evaluations
  statements : Grows doc.statements next.statements

theorem Continues.refl (doc : Document) : doc.Continues doc :=
  ⟨Grows.refl _, Grows.refl _, Grows.refl _, Grows.refl _, Grows.refl _⟩

theorem Continues.introduce (h : doc.Continues earlier) (name : String) (params : List String)
    (body : ExprId) : doc.Continues (earlier.introduce name params body) where
  texts := (h.texts.trans (Interner.grows_intern _ name)).trans (Interner.grows_internAll _ params)
  exprs := h.exprs.push _
  definitions := h.definitions.push _
  evaluations := h.evaluations
  statements := h.statements.push _

/-- **A step keeps all that was there**, unless it gives a definition another body. -/
theorem Continues.of_effect (h : doc.Continues earlier) (heffect : step.Effect earlier built next)
    (hspares : step.Spares doc) : doc.Continues next := by
  cases heffect with
  | addExpr expr => exact { h with exprs := h.exprs.push expr }
  | addParameter _ _ => exact { h with exprs := h.exprs.push _ }
  | declare name params => exact h.introduce name params _
  | setBody _ body => exact { h with definitions := h.definitions.modify hspares _ }
  | define name params body => exact h.introduce name params body
  | evaluate expr source =>
    exact { h with
      evaluations := h.evaluations.push _
      statements := h.statements.push _ }
  | addPerson | greet => exact ⟨h.texts, h.exprs, h.definitions, h.evaluations, h.statements⟩
  | intern text => exact { h with texts := h.texts.trans (Interner.grows_intern _ text) }

theorem continues_build {steps : List Step} (hspares : ∀ step ∈ steps, step.Spares doc) :
    doc.Continues (doc.build steps).2 :=
  build_induction (fun step hstep _ _ _ h heffect => h.of_effect heffect (hspares step hstep))
    (Continues.refl doc)

/-! ### Names of definitions -/

/-- The name of every definition has a text. -/
def Named (doc : Document) : Prop :=
  ∀ definition ∈ doc.definitions, ∃ text, doc.interner.texts[definition.name.index]? = some text

theorem Named.grow (h : doc.Named) (hdefinitions : next.definitions = doc.definitions)
    (htexts : Grows doc.interner.texts next.interner.texts) : next.Named := by
  intro definition hmem
  rw [hdefinitions] at hmem
  obtain ⟨text, htext⟩ := h definition hmem
  exact ⟨text, htexts htext⟩

theorem Named.introduce (h : doc.Named) (name : String) (params : List String) (body : ExprId) :
    (doc.introduce name params body).Named := by
  have hgrows := ((Continues.refl doc).introduce name params body).texts
  intro definition hmem
  rcases Array.mem_push.1 hmem with hold | rfl
  · obtain ⟨text, htext⟩ := h definition hold
    exact ⟨text, hgrows htext⟩
  · exact ⟨name, Interner.grows_internAll _ params (Interner.getElem?_intern _ name)⟩

theorem Named.of_effect (h : doc.Named) (heffect : step.Effect doc built next) : next.Named := by
  cases heffect with
  | declare name params => exact h.introduce name params _
  | define name params body => exact h.introduce name params body
  | setBody _ body =>
    intro definition hmem
    obtain ⟨i, hi, rfl⟩ := Array.mem_iff_getElem.1 hmem
    have hlt : i < doc.definitions.size := by simpa using hi
    have hname := h doc.definitions[i] (Array.getElem_mem hlt)
    rw [Array.getElem_modify]
    split
    · exact hname
    · exact hname
  | intern text => exact h.grow rfl (Interner.grows_intern _ text)
  | addExpr | addParameter | evaluate | addPerson | greet => exact h.grow rfl (Grows.refl _)

theorem named_built (script : List Step) : (Document.built script).Named := by
  apply build_induction fun _ _ _ _ _ h heffect => h.of_effect heffect
  intro definition hmem
  simp [empty] at hmem

end Document

end Reckon
