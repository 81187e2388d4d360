import Mathlib.Data.Nat.Notation
import Reckon.Validate.Declarations

/-!
# Greetings and what is reported about them

Greetings are counted in one pass, with a counter for each person and greetings of all of them mixed
with greetings of nobody. This file shows that what is reported about a greeting depends only on the
earlier greetings of the same person.

* `Document.greetingsBefore`: how often a person is greeted before a certain greeting.
* `Document.repeatedGreeting?`: the error of a greeting, on its own.
* `Document.Counted`: the counters and errors after the first greetings. There is a counter for each
  person and no other, so that the person of a counted greeting can be read. One more greeting keeps
  this (`Counted.exists_countGreeting`), and so do all of them (`Counted.exists_foldlM`).
* `greetingDiagnostics_eq`: the errors are those of the greetings on their own, in order.
* `Document.greetingDiagnosticsOf`, `exists_greetingDiagnosticsOf`: the errors about one person, who is
  counted from two up to the number of greetings.
* `greetings_accounted`: all of it together.
-/

namespace Reckon

/-- What is said about a person greeted for the time `count`. -/
def Person.greetedText (person : Person) (count : ℕ) : String :=
  s!"You can greet each person at most once! '{person.name}' is greeted {count} times."

namespace Document

variable {doc : Document} {state : GreetingCount} {greeting : Greeting} {id : PersonId}
  {person : Person} {number : ℕ}

/-! ### One greeting on its own -/

/-- How often a person is greeted. -/
def greetingCount (doc : Document) (id : PersonId) : ℕ :=
  doc.greetings.toList.countP (·.person = some id)

/-- How often a person is greeted before the greeting with a number. -/
def greetingsBefore (doc : Document) (id : PersonId) (number : ℕ) : ℕ :=
  (doc.greetings.toList.take number).countP (·.person = some id)

/-- The error of a greeting: it is of a person of the document, who is greeted before. -/
def repeatedGreeting? (doc : Document) (greeting : GreetingId) : Option Diagnostic :=
  match doc.greetings[greeting.index]? with
  | some { person := some id } =>
    match doc.persons[id.index]? with
    | some person =>
      let before := doc.greetingsBefore id greeting.index
      if 1 ≤ before then
        some {
          code := .repeatedGreeting
          severity := .error
          message := person.greetedText (before + 1)
          node := greeting.node
          notes := ["greet each person a single time"] }
      else none
    | none => none
  | _ => none

theorem greetingsBefore_succ (h : doc.greetings[number]? = some greeting) (id : PersonId) :
    doc.greetingsBefore id (number + 1) =
      doc.greetingsBefore id number + if greeting.person = some id then 1 else 0 := by
  have hget : doc.greetings.toList[number]? = some greeting := by
    rw [Array.getElem?_toList]
    exact h
  rw [greetingsBefore, List.take_add_one, hget, List.countP_append]
  simp [greetingsBefore]

theorem greetingsBefore_size (doc : Document) (id : PersonId) :
    doc.greetingsBefore id doc.greetings.size = doc.greetingCount id := by
  rw [greetingsBefore, ← Array.length_toList, List.take_length, greetingCount]

/-! ### The pass over the greetings -/

/-- The counters and errors after the first greetings, as many as `number`. -/
structure Counted (doc : Document) (number : ℕ) (state : GreetingCount) : Prop where
  /-- There are as many counters as persons, so that a greeting with a counter is of a person, -/
  size_counts : state.counts.size = doc.persons.size
  /-- and each of them has the greetings so far. -/
  counts : ∀ i < doc.persons.size, state.counts[i]? = some (doc.greetingsBefore ⟨i⟩ number)
  diagnostics : state.diagnostics.toList =
    (List.range number).filterMap fun i => doc.repeatedGreeting? ⟨i⟩

theorem counted_start (doc : Document) :
    doc.Counted 0 { counts := .replicate doc.persons.size 0 } := by
  constructor
  · exact Array.size_replicate
  · intro i hi
    simp [greetingsBefore, hi]
  · rfl

/-- A greeting that has no error and changes no counter adds nothing. -/
theorem Counted.skip (h : doc.Counted number state) (hget : doc.greetings[number]? = some greeting)
    (hnobody : ∀ i < doc.persons.size, greeting.person ≠ some ⟨i⟩)
    (hnone : doc.repeatedGreeting? ⟨number⟩ = none) : doc.Counted (number + 1) state := by
  constructor
  · exact h.size_counts
  · intro i hi
    rw [h.counts i hi, greetingsBefore_succ hget, if_neg (hnobody i hi), Nat.add_zero]
  · rw [h.diagnostics, List.range_succ, List.filterMap_append]
    simp [hnone]

theorem repeatedGreeting?_of_person (hget : doc.greetings[number]? = some { person := some id })
    (hperson : doc.persons[id.index]? = some person) :
    doc.repeatedGreeting? ⟨number⟩ =
      if 1 < doc.greetingsBefore id number + 1 then
        some (greetingDiagnostic ⟨number⟩ person (doc.greetingsBefore id number + 1))
      else none := by
  have hlt : 1 ≤ doc.greetingsBefore id number ↔ 1 < doc.greetingsBefore id number + 1 := by omega
  simp only [repeatedGreeting?, hget, hperson, hlt]
  rfl

/-- A greeting of a person of the document raises the counter, and is an error from the second on. -/
theorem Counted.count (h : doc.Counted number state)
    (hget : doc.greetings[number]? = some { person := some id })
    (hperson : doc.persons[id.index]? = some person) :
    doc.Counted (number + 1)
      { counts := state.counts.setIfInBounds id.index (doc.greetingsBefore id number + 1)
        diagnostics :=
          if 1 < doc.greetingsBefore id number + 1 then
            state.diagnostics.push
              (greetingDiagnostic ⟨number⟩ person (doc.greetingsBefore id number + 1))
          else state.diagnostics } := by
  have hlt : id.index < doc.persons.size := (Array.getElem?_eq_some_iff.1 hperson).1
  constructor
  · exact Array.size_setIfInBounds.trans h.size_counts
  · intro i hi
    rw [Array.getElem?_setIfInBounds, greetingsBefore_succ hget, h.counts i hi, h.size_counts]
    by_cases heq : id.index = i
    · subst heq
      simp [hlt]
    · have hne : id ≠ ⟨i⟩ := by
        intro h
        exact heq (congrArg NodeId.index h)
      simp [heq, hne]
  · rw [List.range_succ, List.filterMap_append, ← h.diagnostics]
    simp only [List.filterMap_cons, List.filterMap_nil, repeatedGreeting?_of_person hget hperson]
    by_cases hbefore : 1 < doc.greetingsBefore id number + 1 <;> simp [hbefore]

/-- The person of a greeting with a counter is read only from the second greeting on. -/
theorem countGreeting_of_person {before : ℕ} (hcount : state.counts[id.index]? = some before)
    (hperson : doc.persons[id.index]? = some person) (number : GreetingId) :
    doc.countGreeting state number { person := some id } = .ok
      { counts := state.counts.setIfInBounds id.index (before + 1)
        diagnostics :=
          if 1 < before + 1 then
            state.diagnostics.push (greetingDiagnostic number person (before + 1))
          else state.diagnostics } := by
  simp only [countGreeting, hcount, person_eq_ok.2 hperson]
  by_cases hlt : 1 < before + 1
  · rw [if_pos hlt, if_pos hlt]
    rfl
  · rw [if_neg hlt, if_neg hlt]
    rfl

/-- **One more greeting.** It is counted without a fault. -/
theorem Counted.exists_countGreeting (h : doc.Counted number state)
    (hget : doc.greetings[number]? = some greeting) :
    ∃ next, doc.countGreeting state ⟨number⟩ greeting = .ok next ∧
      doc.Counted (number + 1) next := by
  obtain ⟨greeted⟩ := greeting
  cases greeted with
  | none =>
    refine ⟨state, rfl, h.skip hget (by simp) ?_⟩
    simp [repeatedGreeting?, hget]
  | some id =>
    by_cases hlt : id.index < doc.persons.size
    · have hperson : doc.persons[id.index]? = some doc.persons[id.index] :=
        Array.getElem?_eq_getElem hlt
      have hcount := h.counts id.index hlt
      exact ⟨_, countGreeting_of_person hcount hperson ⟨number⟩, h.count hget hperson⟩
    · -- a person outside of the document has no counter
      have hnone : state.counts[id.index]? = none :=
        Array.getElem?_eq_none (by rw [h.size_counts]; omega)
      have hsame : doc.countGreeting state ⟨number⟩ { person := some id } = .ok state := by
        simp only [countGreeting, hnone]
        rfl
      refine ⟨state, hsame, h.skip hget ?_ ?_⟩
      · intro i hi heq
        have hindex : id.index = i := congrArg NodeId.index (Option.some.inj heq)
        omega
      · simp [repeatedGreeting?, hget, hlt]

/-- **All greetings.** `rest` are those that are still to be counted. -/
theorem Counted.exists_foldlM (rest : List Greeting) (h : doc.Counted number state)
    (hrest : doc.greetings.toList.drop number = rest) :
    ∃ final, (rest.zipIdx number).foldlM
        (fun state (greeting, index) => doc.countGreeting state ⟨index⟩ greeting) state =
          .ok final ∧
      doc.Counted (number + rest.length) final := by
  induction rest generalizing number state with
  | nil => exact ⟨state, rfl, h⟩
  | cons greeting rest ih =>
    have hget : doc.greetings[number]? = some greeting := by
      rw [← Array.getElem?_toList, ← Nat.add_zero number, ← List.getElem?_drop, hrest]
      rfl
    have hdrop : doc.greetings.toList.drop (number + 1) = rest := by
      rw [← List.drop_drop, hrest]
      rfl
    obtain ⟨next, hnext, hcounted⟩ := h.exists_countGreeting hget
    obtain ⟨final, hfinal, hcounted⟩ := ih hcounted hdrop
    refine ⟨final, ?_, ?_⟩
    · rw [List.zipIdx_cons, List.foldlM_cons]
      exact bind_eq_ok.2 ⟨next, hnext, hfinal⟩
    · rwa [List.length_cons, show number + (rest.length + 1) = number + 1 + rest.length by omega]

/-- The errors of the greetings on their own, in order. -/
def repeatedGreetings (doc : Document) : List Diagnostic :=
  (List.range doc.greetings.size).filterMap fun i => doc.repeatedGreeting? ⟨i⟩

theorem greetingDiagnostics_eq (doc : Document) :
    doc.greetingDiagnostics = .ok doc.repeatedGreetings := by
  obtain ⟨final, hfinal, hcounted⟩ := (counted_start doc).exists_foldlM doc.greetings.toList rfl
  rw [Array.length_toList, Nat.zero_add] at hcounted
  rw [greetingDiagnostics, hfinal, repeatedGreetings, ← hcounted.diagnostics]
  rfl

/-! ### One person -/

/-- Whether a diagnostic is on a greeting of the person. -/
def isOnGreetingOf (doc : Document) (id : PersonId) (diagnostic : Diagnostic) : Bool :=
  diagnostic.node.kind = .greeting &&
    doc.greetings[diagnostic.node.index]? = some { person := some id }

/-- The errors about greetings of the person. -/
def greetingDiagnosticsOf (doc : Document) (id : PersonId) : Except Fault (List Diagnostic) :=
  return (← doc.greetingDiagnostics).filter (doc.isOnGreetingOf id)

theorem eq_of_repeatedGreeting? {number : GreetingId} {diagnostic : Diagnostic}
    (h : doc.repeatedGreeting? number = some diagnostic) :
    ∃ person count, diagnostic = greetingDiagnostic number person count := by
  unfold repeatedGreeting? at h
  split at h
  · split at h
    · dsimp only at h
      split at h
      · exact ⟨_, _, (Option.some.inj h).symm⟩
      · cases h
    · cases h
  · cases h

theorem node_of_repeatedGreeting? {number : GreetingId} {diagnostic : Diagnostic}
    (h : doc.repeatedGreeting? number = some diagnostic) : diagnostic.node = number.node := by
  obtain ⟨person, count, rfl⟩ := eq_of_repeatedGreeting? h
  rfl

/-- What one greeting adds to the errors about a person. -/
theorem filter_repeatedGreeting? (hperson : doc.persons[id.index]? = some person)
    (hget : doc.greetings[number]? = some greeting) :
    ((doc.repeatedGreeting? ⟨number⟩).toList.filter (doc.isOnGreetingOf id)).map (·.message) =
      if greeting.person = some id ∧ 1 ≤ doc.greetingsBefore id number then
        [person.greetedText (doc.greetingsBefore id number + 1)]
      else [] := by
  have hon : ∀ diagnostic, doc.repeatedGreeting? ⟨number⟩ = some diagnostic →
      doc.isOnGreetingOf id diagnostic = decide (greeting.person = some id) := by
    intro diagnostic hdiagnostic
    obtain ⟨greeted⟩ := greeting
    simp [isOnGreetingOf, node_of_repeatedGreeting? hdiagnostic, NodeId.node, hget]
  by_cases hgreeted : greeting.person = some id
  · have hsame : doc.greetings[number]? = some { person := some id } := by
      rw [hget, ← hgreeted]
    by_cases hbefore : 1 ≤ doc.greetingsBefore id number
    · have hsome : doc.repeatedGreeting? ⟨number⟩ =
          some (greetingDiagnostic ⟨number⟩ person (doc.greetingsBefore id number + 1)) := by
        rw [repeatedGreeting?_of_person hsame hperson, if_pos (by omega)]
      have hkept : doc.isOnGreetingOf id (greetingDiagnostic ⟨number⟩ person
          (doc.greetingsBefore id number + 1)) = true := by
        rw [hon _ hsome]
        exact decide_eq_true hgreeted
      rw [if_pos ⟨hgreeted, hbefore⟩, hsome, Option.toList_some, List.filter_cons_of_pos hkept]
      rfl
    · have hnone : doc.repeatedGreeting? ⟨number⟩ = none := by
        rw [repeatedGreeting?_of_person hsame hperson, if_neg (by omega)]
      simp [hnone, hbefore]
  · rw [if_neg (by simp [hgreeted])]
    cases hdiagnostic : doc.repeatedGreeting? ⟨number⟩ with
    | none => rfl
    | some diagnostic => simp [hon diagnostic hdiagnostic, hgreeted]

/-- The messages about a person after the first greetings: one for each count from two on. -/
theorem messages_of_le (hperson : doc.persons[id.index]? = some person)
    (hle : number ≤ doc.greetings.size) :
    (((List.range number).filterMap fun i => doc.repeatedGreeting? ⟨i⟩).filter
        (doc.isOnGreetingOf id)).map (·.message) =
      (List.range' 2 (doc.greetingsBefore id number - 1)).map person.greetedText := by
  induction number with
  | zero => simp [greetingsBefore]
  | succ number ih =>
    have hget : doc.greetings[number]? = some doc.greetings[number] :=
      Array.getElem?_eq_getElem (by omega)
    have hadded := filter_repeatedGreeting? hperson hget
    rw [List.range_succ, List.filterMap_append, List.filter_append, List.map_append,
      ih (by omega), greetingsBefore_succ hget]
    have hlast : [number].filterMap (fun i => doc.repeatedGreeting? ⟨i⟩) =
        (doc.repeatedGreeting? ⟨number⟩).toList := by
      cases hdiagnostic : doc.repeatedGreeting? ⟨number⟩ <;> simp [hdiagnostic]
    rw [hlast, hadded]
    by_cases hgreeted : doc.greetings[number].person = some id
    · by_cases hbefore : 1 ≤ doc.greetingsBefore id number
      · -- one count more
        rw [if_pos ⟨hgreeted, hbefore⟩, if_pos hgreeted,
          show doc.greetingsBefore id number + 1 - 1 = doc.greetingsBefore id number - 1 + 1 by omega,
          List.range'_concat, List.map_append,
          show 2 + 1 * (doc.greetingsBefore id number - 1) = doc.greetingsBefore id number + 1 by
            omega]
        rfl
      · rw [if_neg (by simp [hbefore]), if_pos hgreeted, List.append_nil,
          show doc.greetingsBefore id number = 0 by omega]
    · rw [if_neg (by simp [hgreeted]), if_neg hgreeted, List.append_nil, Nat.add_zero]

/-- A person is reported once less than greeted, with counts from two on. -/
theorem exists_greetingDiagnosticsOf (hperson : doc.persons[id.index]? = some person) :
    ∃ errors, doc.greetingDiagnosticsOf id = .ok errors ∧
      errors.length = doc.greetingCount id - 1 ∧
      errors.map (·.message) =
        (List.range' 2 (doc.greetingCount id - 1)).map person.greetedText := by
  have hmessages := messages_of_le hperson (Nat.le_refl doc.greetings.size)
  rw [greetingsBefore_size] at hmessages
  refine ⟨doc.repeatedGreetings.filter (doc.isOnGreetingOf id), ?_, ?_, hmessages⟩
  · rw [greetingDiagnosticsOf, greetingDiagnostics_eq]
    rfl
  · have hlength := congrArg List.length hmessages
    rwa [List.length_map, List.length_map, List.length_range'] at hlength

/-- **Greetings are accounted for person by person.**

* The check meets no fault, and the errors are those of the greetings on their own, in order.
* A person of the document is reported once less than greeted, with counts from two on.
* Two lists of greetings that have the same greetings of this person give the same number of errors
  about it and the same counts, whatever stands between. -/
theorem greetings_accounted (doc : Document) :
    doc.greetingDiagnostics =
      .ok ((List.range doc.greetings.size).filterMap fun i => doc.repeatedGreeting? ⟨i⟩) ∧
    ∀ (id : PersonId) (person : Person), doc.persons[id.index]? = some person →
      ∃ errors, doc.greetingDiagnosticsOf id = .ok errors ∧
        errors.length = doc.greetingCount id - 1 ∧
        errors.map (·.message) =
          (List.range' 2 (doc.greetingCount id - 1)).map person.greetedText ∧
        ∀ other : Document, other.persons = doc.persons →
          other.greetings.toList.filter (·.person = some id) =
            doc.greetings.toList.filter (·.person = some id) →
          ∃ others, other.greetingDiagnosticsOf id = .ok others ∧
            others.length = errors.length ∧
            others.map (·.message) = errors.map (·.message) := by
  refine ⟨greetingDiagnostics_eq doc, ?_⟩
  intro id person hperson
  obtain ⟨errors, herrors, hlength, hmessages⟩ := exists_greetingDiagnosticsOf hperson
  refine ⟨errors, herrors, hlength, hmessages, ?_⟩
  intro other hpersons hsame
  have hcount : other.greetingCount id = doc.greetingCount id := by
    rw [greetingCount, greetingCount, List.countP_eq_length_filter, List.countP_eq_length_filter,
      hsame]
  rw [← hpersons] at hperson
  obtain ⟨others, hothers, hlength', hmessages'⟩ := exists_greetingDiagnosticsOf hperson
  refine ⟨others, hothers, ?_, ?_⟩
  · rw [hlength', hlength, hcount]
  · rw [hmessages', hmessages, hcount]

/-- Ada is greeted three times and Bob twice, between greetings of nobody and of a person that is
not there. -/
def mixedGreetings : Document where
  persons := #[⟨"Ada"⟩, ⟨"Bob"⟩]
  greetings := #[⟨some ⟨0⟩⟩, ⟨none⟩, ⟨some ⟨1⟩⟩, ⟨some ⟨0⟩⟩, ⟨some ⟨7⟩⟩, ⟨some ⟨1⟩⟩, ⟨some ⟨0⟩⟩,
    ⟨some ⟨7⟩⟩]

/-- There are errors on three of the greetings. About Ada the same is said if she alone is greeted. -/
theorem mixedGreetings_accounted :
    (∃ errors, mixedGreetings.greetingDiagnostics = .ok errors ∧
      errors.map (·.node) = [⟨.greeting, 3⟩, ⟨.greeting, 5⟩, ⟨.greeting, 6⟩]) ∧
    (∃ errors, mixedGreetings.greetingDiagnosticsOf ⟨0⟩ = .ok errors ∧
      errors.map (·.message) = [Person.greetedText ⟨"Ada"⟩ 2, Person.greetedText ⟨"Ada"⟩ 3]) ∧
    (∃ errors, mixedGreetings.greetingDiagnosticsOf ⟨1⟩ = .ok errors ∧ errors.length = 1) ∧
    ∃ errors, { mixedGreetings with
        greetings := #[⟨some ⟨0⟩⟩, ⟨some ⟨0⟩⟩, ⟨some ⟨0⟩⟩] }.greetingDiagnosticsOf ⟨0⟩ = .ok errors ∧
      errors.length = 2 := by
  obtain ⟨hall, hperson⟩ := greetings_accounted mixedGreetings
  obtain ⟨errors, herrors, hlength, hmessages, hother⟩ := hperson ⟨0⟩ ⟨"Ada"⟩ rfl
  obtain ⟨second, hsecond, honce, -⟩ := hperson ⟨1⟩ ⟨"Bob"⟩ rfl
  refine ⟨⟨_, hall, by decide⟩, ⟨errors, herrors, hmessages⟩, ⟨second, hsecond, honce⟩, ?_⟩
  obtain ⟨others, hothers, hsame, -⟩ := hother
    { mixedGreetings with greetings := #[⟨some ⟨0⟩⟩, ⟨some ⟨0⟩⟩, ⟨some ⟨0⟩⟩] } rfl (by decide)
  exact ⟨others, hothers, hsame.trans hlength⟩

end Document

end Reckon
