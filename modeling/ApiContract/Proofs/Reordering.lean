import ApiContract.Proofs.Results

set_option autoImplicit false

namespace ApiContract

def Feature.reversed (feature : Feature) : Feature :=
  { feature with scenarios := feature.scenarios.reverse }

namespace Compatibility

variable {s : Scenario} {older older' newer : Feature} {report : Report} {ts us : List Scenario}
  {variant : RequestPattern} {verdicts verdicts' : List Verdict}

def Alike : List Verdict → List Verdict → Prop :=
  List.Forall₂ fun a b => a.isSuccess = b.isSuccess

theorem Alike.refl (verdicts : List Verdict) : Alike verdicts verdicts :=
  List.forall₂_same.mpr fun _ _ => rfl

theorem Alike.flatten {blocks blocks' : List (List Verdict)} (h : List.Forall₂ Alike blocks blocks') :
    Alike blocks.flatten blocks'.flatten := by
  induction h with
  | nil => exact .nil
  | cons first _ ih => exact List.rel_append first ih

theorem reversed_perm (feature : Feature) : feature.reversed.scenarios.Perm feature.scenarios :=
  List.reverse_perm _

theorem active_perm (perm : older'.scenarios.Perm older.scenarios) :
    older'.active.Perm older.active :=
  perm.filter _

theorem counterparts_perm (perm : ts.Perm us) : (counterparts ts s).Perm (counterparts us s) :=
  perm.filter _

theorem compareVariant_passes_perm (perm : ts.Perm us) :
    compareVariant s ts variant = some .success ↔ compareVariant s us variant = some .success := by
  rw [compareVariant_eq_success, compareVariant_eq_success]
  simp only [perm.mem_iff]

theorem result_alike {a b : Verdict} (perm : ts.Perm us) (first : result ts s variant = some a)
    (second : result us s variant = some b) : a.isSuccess = b.isSuccess := by
  obtain ⟨own, ran, rfl⟩ := Option.map_eq_some_iff.mp first
  obtain ⟨other, runs, rfl⟩ := Option.map_eq_some_iff.mp second
  have passes : own = .success ↔ other = .success := by
    have counterparts : (counterparts ts s).Perm (counterparts us s) := counterparts_perm perm
    have either := @compareVariant_passes_perm s _ _ variant counterparts
    simpa only [ran, runs, Option.some.injEq] using either
  rw [Bool.eq_iff_iff, Verdict.isSuccess_iff, Verdict.isSuccess_iff]
  simpa only [inScenario_eq_success] using passes

theorem results_alike {variants : List RequestPattern} (perm : ts.Perm us)
    (first : variants.mapM (result ts s) = some verdicts)
    (second : variants.mapM (result us s) = some verdicts') : Alike verdicts verdicts' := by
  rw [mapM_eq_some] at first second
  induction first generalizing verdicts' with
  | nil =>
    cases second
    exact .nil
  | cons own _ ih =>
    cases second with
    | cons other more => exact .cons (result_alike perm own other) (ih more)

theorem compareScenario_of_expansion {variants : List RequestPattern}
    (expanded : expansion s = pure variants) : compareScenario ts s =
      if (counterparts ts s).isEmpty then some [(apiRemoved s).inScenario s.name]
      else variants.mapM (result ts s) := by
  have split : compareScenario ts s = Option.bind (expansion s : Option _) _ := rfl
  rw [split, expanded]
  rfl

theorem compareScenario_alike (perm : ts.Perm us) (first : compareScenario ts s = some verdicts)
    (second : compareScenario us s = some verdicts') : Alike verdicts verdicts' := by
  obtain ⟨attempt, expanded, ran⟩ := Option.bind_eq_some_iff.mp first
  cases attempt with
  | error error =>
    have same : compareScenario us s = some verdicts := Option.bind_eq_some_iff.mpr ⟨_, expanded, ran⟩
    obtain rfl := Option.some.inj (same.symm.trans second)
    exact Alike.refl verdicts
  | ok variants =>
    rw [compareScenario_of_expansion expanded] at first second
    have empty : (counterparts us s).isEmpty = (counterparts ts s).isEmpty :=
      (counterparts_perm perm).symm.isEmpty_eq
    rw [empty] at second
    split at first
    · next none =>
      rw [if_pos none] at second
      obtain rfl := Option.some.inj (first.symm.trans second)
      exact Alike.refl verdicts
    · next some_ =>
      rw [if_neg some_] at second
      exact results_alike perm first second

theorem exists_blocks (run : compare older newer = some report) : ∃ block : Scenario → List Verdict,
    (∀ s ∈ older.active, compareScenario newer.active s = some (block s)) ∧
      report.verdicts = older.active.flatMap block := by
  obtain ⟨blocks, compared, same⟩ := Option.bind_eq_some_iff.mp run
  cases same
  let block (s : Scenario) : List Verdict := (compareScenario newer.active s).getD []
  have ran (s : Scenario) (mem : s ∈ older.active) :
      compareScenario newer.active s = some (block s) := by
    obtain ⟨verdicts, -, ran⟩ := exists_of_forall₂_mem (mapM_eq_some.mp compared).flip mem
    simp only [block, ran, Option.getD_some]
  have same : some blocks = some (older.active.map block) := by
    rw [← compared, mapM_eq_some, List.forall₂_map_right_iff, List.forall₂_same]
    exact ran
  cases same
  exact ⟨block, ran, List.flatMap_def.symm⟩

theorem compare_of_blocks {block : Scenario → List Verdict}
    (h : ∀ s ∈ older.active, compareScenario newer.active s = some (block s)) :
    compare older newer = some ⟨older.active.flatMap block⟩ := by
  have compared : older.active.mapM (compareScenario newer.active) =
      some (older.active.map block) := by
    rw [mapM_eq_some, List.forall₂_map_right_iff, List.forall₂_same]
    exact h
  rw [compare, compared, List.flatMap_def]
  rfl

theorem compare_reordered (run : compare older newer = some report) :
    (∀ newer' report', newer'.scenarios.Perm newer.scenarios →
      compare older newer' = some report' →
      report'.verdicts.length = report.verdicts.length ∧
        List.Forall₂ (fun a b => a.isSuccess = b.isSuccess) report'.verdicts report.verdicts) ∧
    ∃ block : Scenario → List Verdict,
      (∀ s ∈ older.active, compareScenario newer.active s = some (block s)) ∧
      report.verdicts = older.active.flatMap block ∧
      ∀ older', older'.scenarios.Perm older.scenarios →
        older'.active.Perm older.active ∧
          compare older' newer = some ⟨older'.active.flatMap block⟩ := by
  constructor
  · intro newer' report' perm run'
    have alike : Alike report'.verdicts report.verdicts := by
      obtain ⟨block, ran, same⟩ := exists_blocks run
      obtain ⟨block', ran', same'⟩ := exists_blocks run'
      rw [same, same', List.flatMap_def, List.flatMap_def]
      apply Alike.flatten
      rw [List.forall₂_map_left_iff, List.forall₂_map_right_iff, List.forall₂_same]
      intro s mem
      exact compareScenario_alike (active_perm perm) (ran' s mem) (ran s mem)
    exact ⟨alike.length_eq, alike⟩
  · obtain ⟨block, ran, same⟩ := exists_blocks run
    refine ⟨block, ran, same, fun older' perm => ⟨active_perm perm, ?_⟩⟩
    apply compare_of_blocks
    intro s mem
    exact ran s ((active_perm perm).mem_iff.mp mem)

def bodiesText (bodies : List String) : String :=
  "[\"\",\x7b\x7d,\x7b\x7d,[" ++ ",".intercalate (bodies.map fun body =>
    "[\"\",[],[\"PUT\",\"/\",\x7b\x7d,\x7b\x7d,\"" ++ body ++ "\"],[200]]") ++ "]]"

def takingBodies (bodies : List String) : Feature :=
  featureOf (bodiesText bodies)

theorem bodies_reordered : ∃ report report',
    compare (takingBodies ["(number)", "(url)"]) (takingBodies ["(number)", "(null)"]) =
        some report ∧
      compare (takingBodies ["(number)", "(url)"])
        (takingBodies ["(number)", "(null)"]).reversed = some report' ∧
      report.verdicts.map Verdict.isSuccess = [true, false] ∧ report' ≠ report ∧
      List.Forall₂ (fun a b => a.isSuccess = b.isSuccess) report'.verdicts report.verdicts ∧
      ∃ block : Scenario → List Verdict,
        report.verdicts = (takingBodies ["(number)", "(url)"]).active.flatMap block ∧
        compare (takingBodies ["(number)", "(url)"]).reversed
            (takingBodies ["(number)", "(null)"]) =
          some ⟨(takingBodies ["(number)", "(url)"]).reversed.active.flatMap block⟩ := by
  have fine : (compare (takingBodies ["(number)", "(url)"])
      (takingBodies ["(number)", "(null)"])).any (fun report =>
        (compare (takingBodies ["(number)", "(url)"])
          (takingBodies ["(number)", "(null)"]).reversed).any fun report' =>
            report.verdicts.map Verdict.isSuccess = [true, false] && report' ≠ report) := by
    decide +kernel
  simp only [Option.any_eq_true, Bool.and_eq_true, decide_eq_true_eq] at fine
  obtain ⟨report, run, report', run', outcomes, differ⟩ := fine
  obtain ⟨orders, block, -, same, others⟩ := compare_reordered run
  have alike := (orders _ report' (reversed_perm _) run').2
  have moved := (others _ (reversed_perm _)).2
  exact ⟨report, report', run, run', outcomes, differ, alike, block, same, moved⟩

end Compatibility

end ApiContract
