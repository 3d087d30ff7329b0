import ApiContract.Proofs.Requests

set_option autoImplicit false

namespace ApiContract

namespace Compatibility

variable {s : Scenario} {newer : List Scenario} {verdicts : List Verdict}

def counterparts (newer : List Scenario) (s : Scenario) : List Scenario :=
  newer.filter fun t => t.request.sameShape s.request

def expansion (s : Scenario) : Attempt (List RequestPattern) :=
  s.requestVariants (s.resolver.withCombinations .exhaustive) []

def result (newer : List Scenario) (s : Scenario) (variant : RequestPattern) : Option Verdict :=
  (compareVariant s (counterparts newer s) variant).map (Verdict.inScenario s.name)

structure Block (newer : List Scenario) (s : Scenario) (verdicts : List Verdict) : Prop where
  nonempty : verdicts ≠ []
  named : ∀ failure, .failure failure ∈ verdicts → failure.scenario = some s.name
  unexpanded : (∀ variants, expansion s ≠ pure variants) → ∃ failure, verdicts = [.failure failure]
  removed : counterparts newer s = [] → ∃ failure, verdicts = [.failure failure]
  compared : ∀ variants, expansion s = pure variants → counterparts newer s ≠ [] →
    variants ≠ [] ∧ List.Forall₂ (fun variant verdict => result newer s variant = some verdict)
      variants verdicts

theorem inScenario_named {name : String} {verdict : Verdict} {failure : Failure}
    (h : verdict.inScenario name = .failure failure) : failure.scenario = some name := by
  cases verdict with
  | success => cases h
  | failure own =>
    cases h
    rfl

theorem block_of_failure {failure : Failure} {verdict : Verdict}
    (same : verdict.inScenario s.name = .failure failure)
    (alone : (∀ variants, expansion s ≠ pure variants) ∨ counterparts newer s = []) :
    Block newer s [verdict.inScenario s.name] where
  nonempty := List.cons_ne_nil _ _
  named other mem := inScenario_named (List.mem_singleton.mp mem).symm
  unexpanded _ := ⟨failure, by rw [same]⟩
  removed _ := ⟨failure, by rw [same]⟩
  compared variants expanded some_ := by
    rcases alone with none | none
    · exact absurd expanded (none variants)
    · exact absurd none some_

theorem block_of_variants {variants : List RequestPattern} (expanded : expansion s = pure variants)
    (nonempty : variants ≠ []) (some_ : counterparts newer s ≠ [])
    (each : variants.mapM (result newer s) = some verdicts) : Block newer s verdicts where
  nonempty := by
    rintro rfl
    exact nonempty (List.forall₂_nil_right_iff.mp (mapM_eq_some.mp each))
  named failure mem := by
    obtain ⟨variant, -, outcome⟩ := exists_of_forall₂_mem (mapM_eq_some.mp each) mem
    obtain ⟨own, -, same⟩ := Option.map_eq_some_iff.mp outcome
    exact inScenario_named same
  unexpanded none := absurd expanded (none variants)
  removed none := absurd none some_
  compared others again _ := by
    rw [expanded, Attempt.pure_inj] at again
    subst again
    exact ⟨nonempty, mapM_eq_some.mp each⟩

theorem expansion_ne_nil {resolver : Resolver} {variants : List RequestPattern}
    (registry : WrittenTypes s.resolver.types) (written : WrittenScenario resolver s)
    (expanded : expansion s = pure variants) : variants ≠ [] := by
  have types : WrittenTypes (s.resolver.withCombinations .exhaustive).types := registry
  exact requestVariants_ne_nil types rfl written expanded

theorem block_of_compareScenario {resolver : Resolver} (registry : WrittenTypes s.resolver.types)
    (written : WrittenScenario resolver s) (run : compareScenario newer s = some verdicts) :
    Block newer s verdicts := by
  obtain ⟨attempt, expanded, rest⟩ := Option.bind_eq_some_iff.mp run
  cases attempt with
  | error error =>
    cases rest
    refine block_of_failure rfl (.inl fun variants again => ?_)
    cases expanded.symm.trans again
  | ok variants =>
    dsimp only at rest
    split at rest
    · next none =>
      cases rest
      exact block_of_failure rfl (.inr (List.isEmpty_iff.mp none))
    · next some_ =>
      exact block_of_variants expanded (expansion_ne_nil registry written expanded)
        (fun none => some_ (List.isEmpty_iff.mpr none)) rest

theorem exitCode_eq_zero {outcome : Outcome} (h : outcome.output.exitCode = 0) :
    ∃ report, outcome = .checked report ∧ report.failed = 0 := by
  cases outcome with
  | checked report =>
    refine ⟨report, rfl, ?_⟩
    by_contra failed
    have unsuccessful : report.success = false := by simpa [Report.success] using failed
    simp [Outcome.output, unsuccessful] at h
  | unresolvable | brokenOff => simp [Outcome.output] at h

/-- The results are the blocks of the active scenarios one behind the other, and the exit code says
that all is well only when each of them was compared, variant by variant, with success. -/
theorem compare_blocks {older newer : Feature} {source : String} {report : Report}
    (read : Feature.read source = .ok older) (run : compare older newer = some report) :
    (∃ blocks, List.Forall₂ (Block newer.active) older.active blocks ∧
      report.verdicts = blocks.flatten) ∧
    ((Outcome.checked report).output.exitCode = 0 → ∀ s ∈ older.active,
      counterparts newer.active s ≠ [] ∧ ∃ variants, expansion s = pure variants ∧ variants ≠ [] ∧
        ∀ variant ∈ variants,
          compareVariant s (counterparts newer.active s) variant = some .success) := by
  have written := written_feature read
  have scenarios (s : Scenario) (active : s ∈ older.active) :
      WrittenScenario older.resolver s ∧ WrittenTypes s.resolver.types := by
    have ofScenario := written.scenarios s (List.mem_filter.mp active).1
    exact ⟨ofScenario, ofScenario.resolver ▸ written.types⟩
  constructor
  · obtain ⟨blocks, compared, same⟩ := Option.bind_eq_some_iff.mp run
    cases same
    have each := (List.forall₂_and_left _ _).mpr ⟨scenarios, mapM_eq_some.mp compared⟩
    exact ⟨blocks, each.imp fun s _ h => block_of_compareScenario h.1.2 h.1.1 h.2, rfl⟩
  · intro exit s active
    obtain ⟨other, same, passed⟩ := exitCode_eq_zero exit
    cases same
    obtain ⟨verdicts, outcome, success⟩ := compare_passes.mp ⟨report, run, passed⟩ s active
    obtain ⟨some_, variants, expanded, each⟩ := compareScenario_passes.mp ⟨verdicts, outcome, success⟩
    obtain ⟨ofScenario, types⟩ := scenarios s active
    exact ⟨some_, variants, expanded, expansion_ne_nil types ofScenario expanded, each⟩

theorem chains_block : ∃ report verdicts,
    compare (featureOf (chainsText "(number)")) (featureOf (chainsText "(number?)")) = some report ∧
      List.Forall₂ (Block (featureOf (chainsText "(number?)")).active)
        (featureOf (chainsText "(number)")).active [verdicts] ∧
      report.verdicts = verdicts ∧ verdicts.length = 2 := by
  have fine : decide ((featureOf (chainsText "(number)")).active.length = 1) &&
      (compare (featureOf (chainsText "(number)")) (featureOf (chainsText "(number?)"))).any
        fun report => report.verdicts.length = 2 := by decide +kernel
  simp only [Bool.and_eq_true, decide_eq_true_eq, Option.any_eq_true] at fine
  obtain ⟨one, report, run, two⟩ := fine
  have active : (featureOf (chainsText "(number)")).active ≠ [] :=
    List.ne_nil_of_length_pos (Nat.lt_of_lt_of_eq Nat.one_pos one.symm)
  obtain ⟨⟨blocks, each, same⟩, -⟩ := compare_blocks (read_featureOf active) run
  obtain ⟨verdicts, rfl⟩ := List.length_eq_one_iff.mp (each.length_eq.symm.trans one)
  rw [List.flatten_singleton] at same
  exact ⟨report, verdicts, run, each, same, same ▸ two⟩

end Compatibility

end ApiContract
