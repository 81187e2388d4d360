import Reckon.Eval.Error
import Std.Data.ExtTreeMap

/-!
# Results of a pass

A pass over a document records the outcome of each evaluation, in the order in which they stand, and
the errors of the variables that could not be computed. Beside the entries there is an index of their
places, by which an evaluation is looked up. By the field `index_iff` it gives the last place of each
evaluation, so that no look-up leaves the entries.

* `Results.record`, `Results.recordFailure`: what a pass adds.
* `Results.outcome?`, `Results.value`, `Results.error?`: the results by evaluation, read through the
  index. If an evaluation is recorded twice, its last outcome counts.
* `Results.outcome?_of_isLast`, `Results.outcome?_of_absent`: what a look-up finds;
  `Results.exists_outcome?`: it meets no fault.
* `Results.equal`: equality with values compared as numbers, so that results with a NaN do not even
  equal themselves.
-/

namespace Reckon

/-- The outcome of an evaluation. -/
structure Entry where
  evaluation : EvaluationId
  outcome : Outcome

/-- Equality of entries, with values compared as numbers. -/
def Entry.equal (a b : Entry) : Bool :=
  a.evaluation = b.evaluation && a.outcome.equal b.outcome

/-- `place` is the last one where an entry of the evaluation stands. -/
structure Entry.IsLast (entries : Array Entry) (evaluation : EvaluationId) (place : Nat) : Prop where
  found : entries[place]?.map Entry.evaluation = some evaluation
  last : ∀ later, place < later → entries[later]?.map Entry.evaluation ≠ some evaluation

namespace Entry.IsLast

variable {entries : Array Entry} {evaluation : EvaluationId} {place another : Nat}

theorem unique (h : IsLast entries evaluation place) (h' : IsLast entries evaluation another) :
    place = another := by
  rcases Nat.lt_trichotomy place another with hlt | heq | hlt
  · exact absurd h'.found (h.last another hlt)
  · exact heq
  · exact absurd h.found (h'.last place hlt)

theorem lt_size (h : IsLast entries evaluation place) : place < entries.size := by
  obtain ⟨entry, hentry, -⟩ := Option.map_eq_some_iff.1 h.found
  exact (Array.getElem?_eq_some_iff.1 hentry).1

/-- The last place depends on the evaluations of the entries only. -/
theorem of_map_eq {entries' : Array Entry} (h : IsLast entries evaluation place)
    (hmap : entries'.map Entry.evaluation = entries.map Entry.evaluation) :
    IsLast entries' evaluation place := by
  have hplace (i : Nat) : entries'[i]?.map Entry.evaluation = entries[i]?.map Entry.evaluation := by
    rw [← Array.getElem?_map, hmap, Array.getElem?_map]
  constructor
  · rw [hplace]
    exact h.found
  · intro later hlater
    rw [hplace]
    exact h.last later hlater

/-- One more entry stands in the last place of its evaluation, and the others keep theirs. -/
theorem push_iff {entry : Entry} :
    IsLast (entries.push entry) evaluation place ↔
      if entry.evaluation = evaluation then place = entries.size
      else IsLast entries evaluation place := by
  have hnew : (entries.push entry)[entries.size]?.map Entry.evaluation = some entry.evaluation := by
    rw [Array.getElem?_push_size]
    rfl
  have hold (i : Nat) (hi : i ≠ entries.size) : (entries.push entry)[i]? = entries[i]? := by
    rw [Array.getElem?_push, if_neg hi]
  by_cases heq : entry.evaluation = evaluation
  · rw [if_pos heq]
    have hlast : IsLast (entries.push entry) evaluation entries.size := by
      refine ⟨hnew.trans (congrArg some heq), ?_⟩
      intro later hlater
      have hnone : (entries.push entry)[later]? = none :=
        Array.getElem?_eq_none (by rwa [Array.size_push])
      simp [hnone]
    exact ⟨fun h => h.unique hlast, fun h => h ▸ hlast⟩
  · rw [if_neg heq]
    constructor
    · intro h
      have hplace : place ≠ entries.size := by
        rintro rfl
        exact heq (Option.some.inj (hnew.symm.trans h.found))
      refine ⟨hold place hplace ▸ h.found, ?_⟩
      intro later hlater
      by_cases hsize : later = entries.size
      · simp [hsize]
      · exact hold later hsize ▸ h.last later hlater
    · intro h
      refine ⟨hold place (Nat.ne_of_lt h.lt_size) ▸ h.found, ?_⟩
      intro later hlater
      by_cases hsize : later = entries.size
      · rw [hsize, hnew]
        exact fun hsome => heq (Option.some.inj hsome)
      · rw [hold later hsize]
        exact h.last later hlater

end Entry.IsLast

/-- What a pass has found so far. -/
structure Results where
  /-- The outcomes in the order of the evaluations. -/
  entries : Array Entry
  /-- The place of each evaluation among the entries. -/
  index : Std.ExtTreeMap EvaluationId Nat
  /-- The variables that could not be computed, in order, with the errors. -/
  failures : Array (DefId × EvalError)
  /-- The index gives the last places, and nothing else. -/
  index_iff : ∀ (evaluation : EvaluationId) (place : Nat),
    index[evaluation]? = some place ↔ Entry.IsLast entries evaluation place

namespace Results

/-- Results without anything in them. -/
def empty : Results where
  entries := #[]
  index := ∅
  failures := #[]
  index_iff evaluation place := by
    constructor
    · intro h
      simp at h
    · intro h
      exact absurd h.lt_size (Nat.not_lt_zero place)

instance : Inhabited Results := ⟨empty⟩

/-- Adds the outcome of an evaluation, and enters its place. -/
def record (results : Results) (evaluation : EvaluationId) (outcome : Outcome) : Results where
  entries := results.entries.push { evaluation, outcome }
  index := results.index.insert evaluation results.entries.size
  failures := results.failures
  index_iff other place := by
    rw [Std.ExtTreeMap.getElem?_insert, Entry.IsLast.push_iff]
    by_cases h : evaluation = other
    · simp [h, eq_comm]
    · simp [h, results.index_iff]

/-- Adds a variable that could not be computed. -/
def recordFailure (results : Results) (definition : DefId) (error : EvalError) : Results :=
  { results with failures := results.failures.push (definition, error) }

/-- The outcome of an evaluation, if the pass has reached it. -/
def outcome? (results : Results) (evaluation : EvaluationId) : Except Fault (Option Outcome) :=
  match results.index[evaluation]? with
  | none => return none
  | some place => return some (← fetch results.entries place).outcome

/-- The value of an evaluation. There is none if it was not reached or ended with an error. -/
def value (results : Results) (evaluation : EvaluationId) : Except Fault Value := do
  match ← results.outcome? evaluation with
  | some (.ok value) => return value
  | _ => return none

/-- The error of an evaluation, if it ended with one. -/
def error? (results : Results) (evaluation : EvaluationId) : Except Fault (Option EvalError) := do
  match ← results.outcome? evaluation with
  | some (.error error) => return some error
  | _ => return none

/-- Whether an evaluation or a variable ended with an error. -/
def hasErrors (results : Results) : Bool :=
  !results.failures.isEmpty || results.entries.any fun entry =>
    match entry.outcome with
    | .error _ => true
    | .ok _ => false

/-- The number of outcomes. -/
def size (results : Results) : Nat :=
  results.entries.size

/-- Whether there are no outcomes. -/
def isEmpty (results : Results) : Bool :=
  results.entries.isEmpty

/-- Equality of results, with values compared as numbers. -/
def equal (a b : Results) : Bool :=
  a.entries.isEqv b.entries Entry.equal && a.index == b.index && a.failures = b.failures

section Fields

variable (results : Results) (evaluation : EvaluationId) (outcome : Outcome) (definition : DefId)
  (error : EvalError)

@[simp] theorem entries_empty : empty.entries = #[] := rfl

@[simp] theorem failures_empty : empty.failures = #[] := rfl

@[simp] theorem entries_record :
    (results.record evaluation outcome).entries = results.entries.push { evaluation, outcome } := rfl

@[simp] theorem failures_record :
    (results.record evaluation outcome).failures = results.failures := rfl

@[simp] theorem entries_recordFailure :
    (results.recordFailure definition error).entries = results.entries := rfl

@[simp] theorem failures_recordFailure :
    (results.recordFailure definition error).failures =
      results.failures.push (definition, error) := rfl

end Fields

/-! ### The index -/

variable {results : Results} {evaluation : EvaluationId}

/-- The index adds nothing to the entries, so that results are equal if the entries and the failures
are. -/
@[ext]
theorem ext {a b : Results} (hentries : a.entries = b.entries) (hfailures : a.failures = b.failures) :
    a = b := by
  have hindex : a.index = b.index := by
    apply Std.ExtTreeMap.ext_getElem?
    intro evaluation
    apply Option.ext
    intro place
    rw [a.index_iff, b.index_iff, hentries]
  cases a
  cases b
  congr

/-- A look-up finds the entry in the last place of the evaluation. -/
theorem outcome?_of_isLast {place : Nat} {entry : Entry}
    (h : Entry.IsLast results.entries evaluation place)
    (hentry : results.entries[place]? = some entry) :
    results.outcome? evaluation = .ok (some entry.outcome) := by
  simp only [outcome?, (results.index_iff evaluation place).2 h, fetch_eq_ok.2 hentry]
  rfl

/-- A look-up finds nothing if no entry is of the evaluation. -/
theorem outcome?_of_absent (h : ∀ place, ¬ Entry.IsLast results.entries evaluation place) :
    results.outcome? evaluation = .ok none := by
  have hnone : results.index[evaluation]? = none := by
    apply Option.eq_none_iff_forall_ne_some.2
    intro place hplace
    exact h place ((results.index_iff evaluation place).1 hplace)
  simp only [outcome?, hnone]
  rfl

/-- No look-up leaves the entries. -/
theorem exists_outcome? (results : Results) (evaluation : EvaluationId) :
    ∃ outcome, results.outcome? evaluation = .ok outcome := by
  by_cases h : ∃ place, Entry.IsLast results.entries evaluation place
  · obtain ⟨place, hlast⟩ := h
    exact ⟨_, outcome?_of_isLast hlast (Array.getElem?_eq_getElem hlast.lt_size)⟩
  · exact ⟨none, outcome?_of_absent fun place hlast => h ⟨place, hlast⟩⟩

theorem index_record (results : Results) (evaluation other : EvaluationId) (outcome : Outcome) :
    (results.record evaluation outcome).index[other]? =
      if evaluation = other then some results.entries.size else results.index[other]? := by
  simp [record, Std.ExtTreeMap.getElem?_insert]

/-- What was recorded last for an evaluation counts; the others keep their outcomes. -/
theorem outcome?_record (results : Results) (evaluation other : EvaluationId) (outcome : Outcome) :
    (results.record evaluation outcome).outcome? other =
      if evaluation = other then .ok (some outcome) else results.outcome? other := by
  have hnew : fetch (results.record evaluation outcome).entries results.entries.size =
      .ok { evaluation, outcome } := fetch_eq_ok.2 Array.getElem?_push_size
  by_cases h : evaluation = other
  · simp only [outcome?, index_record, if_pos h, hnew]
    rfl
  · simp only [outcome?, index_record, if_neg h]
    cases hplace : results.index[other]? with
    | none => rfl
    | some place =>
      have hlt : place < results.entries.size := ((results.index_iff other place).1 hplace).lt_size
      have hold : fetch (results.record evaluation outcome).entries place =
          fetch results.entries place := by
        simp only [record, fetch, Array.getElem?_push_lt hlt, Array.getElem?_eq_getElem hlt]
      simp only [hold]

/-! ### Values and errors -/

theorem value_of_outcome? {outcome : Option Outcome}
    (h : results.outcome? evaluation = .ok outcome) :
    results.value evaluation = .ok (outcome.bind Outcome.value) := by
  rw [value, h]
  rcases outcome with _ | (error | value) <;> rfl

theorem error?_of_outcome? {outcome : Option Outcome}
    (h : results.outcome? evaluation = .ok outcome) :
    results.error? evaluation = .ok (outcome.bind Outcome.error?) := by
  rw [error?, h]
  rcases outcome with _ | (error | value) <;> rfl

theorem exists_value (results : Results) (evaluation : EvaluationId) :
    ∃ value, results.value evaluation = .ok value := by
  obtain ⟨outcome, h⟩ := results.exists_outcome? evaluation
  exact ⟨_, value_of_outcome? h⟩

theorem exists_error? (results : Results) (evaluation : EvaluationId) :
    ∃ error, results.error? evaluation = .ok error := by
  obtain ⟨outcome, h⟩ := results.exists_outcome? evaluation
  exact ⟨_, error?_of_outcome? h⟩

theorem hasErrors_iff :
    results.hasErrors = true ↔
      (∃ failure, failure ∈ results.failures) ∨
        ∃ entry ∈ results.entries, ∃ error, entry.outcome = .error error := by
  unfold hasErrors
  simp only [Bool.or_eq_true, Bool.not_eq_true', Array.any_eq_true']
  have hfailures : results.failures.isEmpty = false ↔ ∃ failure, failure ∈ results.failures := by
    rw [Array.isEmpty_eq_false_iff_exists_mem]
  have hentry (entry : Entry) :
      (match entry.outcome with | .error _ => true | .ok _ => false) = true ↔
        ∃ error, entry.outcome = .error error := by
    cases entry.outcome <;> simp
  simp only [hfailures, hentry]

theorem hasErrors_empty : empty.hasErrors = false := by
  simp [hasErrors, empty]

end Results

end Reckon
