import Reckon.Proofs.Simulation

/-!
# A greater limit on the depth of calls

The limit on the depth of calls is there to end a recursion that would not end otherwise. This file
shows that it does nothing else: as long as no error about it is reported, a greater limit changes
neither a value nor an error.

* `Results.WithinLimit`: the results hold no such error.
* `Computes.of_larger`, `Runs.of_larger`: a statement and a pass without such an error are the same
  below a greater limit. The second is by induction on the statements.
* `raising_limit_conservative`: the runs of a document under both policies.
-/

namespace Reckon

/-- The results hold no error about calls that were nested too deeply. -/
def Results.WithinLimit (results : Results) : Prop :=
  ∀ error, results.Records error → ¬ error.IsRecursionLimit

namespace Document

variable {doc : Document} {policy : ErrorPolicy} {pass : Pass} {env : Environment}
  {statement : Statement} {statements : List Statement} {outcome : Outcome} {depth larger : ℕ}

theorem Computes.of_larger (hc : doc.Computes (.new depth) env statement outcome)
    (h : doc.WellFormed) (hk : env.Known doc) (hle : depth ≤ larger)
    (hlimit : ∀ error, outcome = .error error → ¬ error.IsRecursionLimit) :
    doc.Computes (.new larger) env statement outcome :=
  hc.of_sameCode h (SameCode.refl doc) hk (fun _ _ => rfl) ⟨rfl, rfl, rfl⟩ hle (Or.inr hlimit)

/-- A pass that did not meet the limit does not meet a greater one. -/
theorem Runs.of_larger (hruns : doc.Runs policy (.new depth) statements pass) (h : doc.WellFormed)
    (hle : depth ≤ larger) (hmem : ∀ statement ∈ statements, statement ∈ doc.statements)
    (hwithin : pass.results.WithinLimit) : doc.Runs policy (.new larger) statements pass := by
  induction hruns with
  | nil => exact .nil
  | @concat statements earlier statement outcome hearlier hc ha ih =>
    have hbefore : ∀ s ∈ statements, s ∈ doc.statements :=
      fun s hs => hmem s (List.mem_append_left _ hs)
    have hsame : doc.Runs policy (.new larger) statements earlier :=
      ih hbefore fun error hr => hwithin error (Results.records_settle.2 (Or.inl hr))
    have hk : earlier.env.Known doc := hearlier.known hbefore
    have hlimit : ∀ error, outcome = .error error → ¬ error.IsRecursionLimit :=
      fun error heq => hwithin error (Results.records_settle.2 (Or.inr heq))
    exact hsame.concat (hc.of_larger h hk hle hlimit) ha

/-- If the first statement that fails does so for another reason, it does below a greater limit. -/
theorem Fails.of_larger {error : EvalError}
    (hfails : doc.Fails .abortPass (.new depth) statements error) (h : doc.WellFormed)
    (hle : depth ≤ larger) (hmem : ∀ statement ∈ statements, statement ∈ doc.statements)
    (hlimit : ¬ error.IsRecursionLimit) : doc.Fails .abortPass (.new larger) statements error := by
  obtain ⟨before, statement, after, earlier, rfl, hruns, hc⟩ := hfails
  have hbefore : ∀ s ∈ before, s ∈ doc.statements :=
    fun s hs => hmem s (List.mem_append_left _ hs)
  have hk : earlier.env.Known doc := hruns.known hbefore
  have hwithin : earlier.results.WithinLimit := fun _ hr => absurd hr (hruns.not_records _)
  refine ⟨before, statement, after, earlier, rfl, hruns.of_larger h hle hbefore hwithin, ?_⟩
  apply hc.of_larger h hk hle
  intro other heq
  cases heq
  exact hlimit

theorem run_abortPass_of_larger (h : doc.WellFormed) (hle : depth ≤ larger)
    (hlimit : ∀ error,
      (Evaluator.new doc { maxCallDepth := depth, errorPolicy := .abortPass }).run.1 =
        .error (.error error) → ¬ error.IsRecursionLimit) :
    (Evaluator.new doc { maxCallDepth := larger, errorPolicy := .abortPass }).run.1 =
      (Evaluator.new doc { maxCallDepth := depth, errorPolicy := .abortPass }).run.1 := by
  have hmem : ∀ statement ∈ doc.statements.toList, statement ∈ doc.statements :=
    fun _ hs => Array.mem_toList_iff.1 hs
  obtain ⟨results, hrun⟩ | ⟨error, hrun⟩ :=
    @Evaluator.run_answers (.new doc { maxCallDepth := depth, errorPolicy := .abortPass }) h
  · obtain ⟨pass, hruns, rfl⟩ := run_eq_ok.1 hrun
    have hwithin : pass.results.WithinLimit := fun _ hr => absurd hr (hruns.not_records _)
    rw [hrun, run_eq_ok]
    exact ⟨pass, hruns.of_larger h hle hmem hwithin, rfl⟩
  · obtain ⟨next, hlist⟩ := run_eq_error.1 hrun
    have hfails : doc.Fails .abortPass (.new larger) doc.statements.toList error :=
      (fails_of_error hlist).of_larger h hle hmem (hlimit error hrun)
    rw [hrun, run_eq_error]
    exact ⟨_, hfails.runList⟩

/-- **Raising the limit is conservative.** In a well-formed document, with a limit on the depth of calls
and a greater one:

* If the pass ends with the first error, and the smaller limit gives results or an error about
  something else, then the greater limit gives the same.
* If errors are recorded and the results for the smaller limit hold none about the depth of calls, then
  the results for the greater one are the same. In any case the two passes are the same pass up to the
  first statement that failed because of the smaller limit: what was bound and recorded until then is
  the same, and both results keep it. -/
theorem raising_limit_conservative (h : doc.WellFormed) (hle : depth ≤ larger) :
    ((∀ error, (Evaluator.new doc { maxCallDepth := depth, errorPolicy := .abortPass }).run.1 =
        .error (.error error) → ¬ error.IsRecursionLimit) →
      (Evaluator.new doc { maxCallDepth := larger, errorPolicy := .abortPass }).run.1 =
        (Evaluator.new doc { maxCallDepth := depth, errorPolicy := .abortPass }).run.1) ∧
    ∃ results raised,
      (Evaluator.new doc { maxCallDepth := depth, errorPolicy := .perEvaluation }).run.1 =
        .ok results ∧
      (Evaluator.new doc { maxCallDepth := larger, errorPolicy := .perEvaluation }).run.1 =
        .ok raised ∧
      (results.WithinLimit → raised = results) ∧
      ∀ before after, doc.statements.toList = before ++ after → ∃ pass,
        doc.runList .perEvaluation before (.new depth) = .ok pass (.new depth) ∧
        results.Extends pass.results ∧
        (pass.results.WithinLimit →
          doc.runList .perEvaluation before (.new larger) = .ok pass (.new larger) ∧
          raised.Extends pass.results) := by
  refine ⟨run_abortPass_of_larger h hle, ?_⟩
  have hmem : ∀ statement ∈ doc.statements.toList, statement ∈ doc.statements :=
    fun _ hs => Array.mem_toList_iff.1 hs
  obtain ⟨final, hfinal⟩ := exists_runs h (.new depth) hmem
  obtain ⟨other, hother⟩ := exists_runs h (.new larger) hmem
  refine ⟨final.results, other.results, run_eq_ok.2 ⟨final, hfinal, rfl⟩,
    run_eq_ok.2 ⟨other, hother, rfl⟩, ?_, ?_⟩
  · intro hwithin
    rw [hother.unique (hfinal.of_larger h hle hmem hwithin)]
  · intro before after hsplit
    rw [hsplit] at hfinal hother hmem
    obtain ⟨pass, hpass, hextends⟩ := hfinal.split
    obtain ⟨pass', hpass', hextends'⟩ := hother.split
    refine ⟨pass, hpass.runList, hextends, ?_⟩
    intro hwithin
    have hsame : doc.Runs .perEvaluation (.new larger) before pass :=
      hpass.of_larger h hle (fun s hs => hmem s (List.mem_append_left _ hs)) hwithin
    rw [hpass'.unique hsame] at hextends'
    exact ⟨hsame.runList, hextends'⟩

/-- The functions `g` and `f`, where `f` calls `g`, and `h`, which calls itself. They are all
evaluated, `h` before `g`. -/
def nestedCalls : Document where
  exprs := #[.number ⟨0x3ff0000000000000⟩, .call (some (.parameter ⟨0⟩ 0)) [],
    .call (some (.parameter ⟨1⟩ 0)) [], .call (some (.definition ⟨0⟩)) [⟨2⟩],
    .call (some (.definition ⟨1⟩)) [⟨0⟩], .call (some (.definition ⟨2⟩)) [⟨0⟩],
    .call (some (.definition ⟨0⟩)) [⟨0⟩]]
  definitions := #[{ name := ⟨1⟩, params := [⟨4⟩], body := ⟨1⟩ },
    { name := ⟨2⟩, params := [⟨4⟩], body := ⟨3⟩ }, { name := ⟨3⟩, params := [⟨4⟩], body := ⟨5⟩ }]
  evaluations := #[{ expr := ⟨4⟩, source := none }, { expr := ⟨5⟩, source := none },
    { expr := ⟨6⟩, source := none }]
  statements := #[.definition ⟨0⟩, .definition ⟨1⟩, .evaluation ⟨0⟩, .definition ⟨2⟩,
    .evaluation ⟨1⟩, .evaluation ⟨2⟩]

/-- With two frames `f` can be evaluated and `h` cannot, so that three frames give the same up to
there. -/
theorem nestedCalls_conservative :
    nestedCalls.WellFormed ∧ ∃ raised pass,
      (Evaluator.new nestedCalls { maxCallDepth := 3, errorPolicy := .perEvaluation }).run.1 =
        .ok raised ∧
      nestedCalls.runList .perEvaluation
        [.definition ⟨0⟩, .definition ⟨1⟩, .evaluation ⟨0⟩, .definition ⟨2⟩] (.new 3) =
          .ok pass (.new 3) ∧
      pass.results.entries = #[⟨⟨0⟩, .ok (some ⟨0x3ff0000000000000⟩)⟩] ∧
      raised.Extends pass.results := by
  have hw : nestedCalls.WellFormed :=
    wellFormed_of_earlier (by decide) (by decide) (by decide) (by decide)
  obtain ⟨-, results, raised, -, hraised, -, hsplit⟩ :=
    raising_limit_conservative hw (Nat.le_succ 2)
  obtain ⟨pass, hpass, -, hsame⟩ := hsplit
    [.definition ⟨0⟩, .definition ⟨1⟩, .evaluation ⟨0⟩, .definition ⟨2⟩]
    [.evaluation ⟨1⟩, .evaluation ⟨2⟩] rfl
  have hresults : pass.results = Results.empty.record ⟨0⟩ (.ok (some ⟨0x3ff0000000000000⟩)) := by
    cases hpass
    rfl
  have hwithin : pass.results.WithinLimit := by
    intro error hr
    simp [hresults, Results.Records] at hr
  exact ⟨hw, raised, pass, hraised, (hsame hwithin).1, by simp [hresults], (hsame hwithin).2⟩

end Document

end Reckon
