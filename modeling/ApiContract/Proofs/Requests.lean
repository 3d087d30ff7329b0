import ApiContract.Compatibility
import ApiContract.Proofs.Variants

set_option autoImplicit false

namespace ApiContract

theorem mapM_eq_some {α β : Type} {f : α → Option β} {l : List α} {bs : List β} :
    l.mapM f = some bs ↔ List.Forall₂ (fun a b => f a = some b) l bs := by
  induction l generalizing bs with
  | nil => simp [eq_comm]
  | cons a rest ih =>
    simp only [List.mapM_cons, Option.bind_eq_bind, Option.bind_eq_some_iff,
      List.forall₂_cons_left_iff, ih, Option.pure_def, Option.some.injEq]
    constructor
    · rintro ⟨b, first, more, later, rfl⟩
      exact ⟨b, more, first, later, rfl⟩
    · rintro ⟨b, more, first, later, rfl⟩
      exact ⟨b, first, more, later, rfl⟩

theorem checkUnder_eq_success {crumb : String} {check : Option Verdict} :
    checkUnder crumb check = some .success ↔ check = some .success :=
  Verdict.map_under_eq_success

section Messages

variable {these those : Resolver}

theorem RequestPattern.encompasses_eq_success {bigger smaller : RequestPattern} :
    bigger.encompasses these those smaller = some .success ↔
      bigger.path.encompasses these those smaller.path = some .success ∧
      bigger.query.encompasses these those smaller.query = some .success ∧
      bigger.headers.encompasses these those smaller.headers = some .success ∧
      bigger.body.encompasses these those smaller.body = some .success := by
  simp only [RequestPattern.encompasses, checkUnder_eq_success, Verdict.thenCheck_eq_success]

theorem ResponsePattern.encompasses_eq_success {bigger smaller : ResponsePattern} :
    bigger.encompasses these those smaller = some .success ↔ bigger.status = smaller.status ∧
      bigger.headers.encompasses these those smaller.headers = some .success ∧
      bigger.body.encompasses these those smaller.body = some .success := by
  unfold ResponsePattern.encompasses
  rw [checkUnder_eq_success]
  by_cases same : bigger.status = smaller.status
  · simp only [same, ne_eq, not_true_eq_false, if_false, true_and, Verdict.thenCheck_eq_success,
      checkUnder_eq_success]
  · simp [same, Verdict.fail, Verdict.under]

end Messages

namespace Compatibility

variable {older t : Scenario} {variant : RequestPattern} {counterparts : List Scenario}

def takes (older : Scenario) (variant : RequestPattern) (t : Scenario) : Option Verdict :=
  t.request.encompasses t.resolver older.resolver variant

theorem accepting_eq_some {taking : List Scenario} :
    (∃ failure, accepting older variant counterparts = some (taking, failure)) ↔
      (∀ t ∈ counterparts, (takes older variant t).isSome) ∧
        taking = counterparts.filter fun t => takes older variant t = some .success := by
  induction counterparts generalizing taking with
  | nil =>
    constructor
    · rintro ⟨failure, run⟩
      cases run
      simp
    · rintro ⟨-, rfl⟩
      exact ⟨none, rfl⟩
  | cons t rest ih =>
    have first : t.request.encompasses t.resolver older.resolver variant = takes older variant t :=
      rfl
    rw [accepting, first, List.forall_mem_cons]
    cases outcome : takes older variant t with
    | none => simp
    | some verdict =>
      cases verdict with
      | success =>
        have more := @ih (rest.filter fun t => takes older variant t = some .success)
        simp only [Option.bind_eq_bind, Option.bind_some, Option.bind_eq_some_iff, Option.pure_def,
          Option.some.injEq, Prod.mk.injEq, Option.isSome_some, true_and, List.filter_cons, outcome,
          decide_true, if_true]
        constructor
        · rintro ⟨failure, ⟨others, other⟩, run, rfl, rfl⟩
          obtain ⟨ended, rfl⟩ := ih.mp ⟨_, run⟩
          exact ⟨ended, rfl⟩
        · rintro ⟨ended, rfl⟩
          obtain ⟨failure, run⟩ := more.mpr ⟨ended, rfl⟩
          exact ⟨failure, _, run, rfl, rfl⟩
      | failure f =>
        simp only [Option.bind_eq_bind, Option.bind_some, Option.bind_eq_some_iff, Option.pure_def,
          Option.some.injEq, Prod.mk.injEq, Option.isSome_some, true_and, List.filter_cons, outcome,
          reduceCtorEq, decide_false, Bool.false_eq_true, if_false]
        constructor
        · rintro ⟨failure, ⟨others, other⟩, run, rfl, rfl⟩
          exact ih.mp ⟨_, run⟩
        · intro h
          obtain ⟨failure, run⟩ := ih.mpr h
          exact ⟨_, _, run, rfl, rfl⟩

theorem judge_eq_success {taking : List Scenario} {failure : Option Failure} :
    (if taking.isEmpty then some (Verdict.failure (failure.getD noMatchingRequest))
      else if (taking.filter fun t => t.response.status = older.response.status).isEmpty then
        some (statusGone older.response.status)
      else Verdict.every (fun newer : Scenario =>
        older.response.encompasses older.resolver newer.resolver newer.response)
        (taking.filter fun t => t.response.status = older.response.status)) = some .success ↔
      (∃ t ∈ taking, t.response.status = older.response.status) ∧
      ∀ t ∈ taking, t.response.status = older.response.status →
        older.response.encompasses older.resolver t.resolver t.response = some .success := by
  -- Of the scenarios that take a variant, those of the older status decide.
  by_cases none_ : taking = []
  · simp [none_]
  · by_cases gone : (taking.filter fun t => t.response.status = older.response.status) = []
    · have missing : ∀ t ∈ taking, ¬ t.response.status = older.response.status := by
        simpa using gone
      simp only [List.isEmpty_eq_false_iff.mpr none_, gone, List.isEmpty_nil, if_true,
        Bool.false_eq_true, if_false]
      apply iff_of_false (by simp [statusGone, Verdict.fail, Verdict.under])
      rintro ⟨⟨t, mem, same⟩, -⟩
      exact missing t mem same
    · obtain ⟨t, mem⟩ := List.exists_mem_of_ne_nil _ gone
      rw [List.mem_filter, decide_eq_true_eq] at mem
      simp only [List.isEmpty_eq_false_iff.mpr none_, List.isEmpty_eq_false_iff.mpr gone,
        Bool.false_eq_true, if_false, Verdict.every_eq_success, List.mem_filter, decide_eq_true_eq,
        and_imp]
      exact ⟨fun all => ⟨⟨t, mem⟩, all⟩, fun h => h.2⟩

theorem compareVariant_eq_success :
    compareVariant older counterparts variant = some .success ↔
      (∀ t ∈ counterparts, (takes older variant t).isSome) ∧
      (∃ t ∈ counterparts, takes older variant t = some .success ∧
        t.response.status = older.response.status) ∧
      ∀ t ∈ counterparts, takes older variant t = some .success →
        t.response.status = older.response.status →
        older.response.encompasses older.resolver t.resolver t.response = some .success := by
  have deciding {taking : List Scenario} (same : taking =
      counterparts.filter fun t => takes older variant t = some .success) (t : Scenario) :
      t ∈ taking ↔ t ∈ counterparts ∧ takes older variant t = some .success := by
    rw [same, List.mem_filter, decide_eq_true_eq]
  constructor
  · intro h
    obtain ⟨⟨taking, failure⟩, run, rest⟩ := Option.bind_eq_some_iff.mp h
    obtain ⟨ended, same⟩ := accepting_eq_some.mp ⟨_, run⟩
    obtain ⟨⟨t, mem, status⟩, answers⟩ := judge_eq_success.mp rest
    obtain ⟨there, taken⟩ := (deciding same t).mp mem
    exact ⟨ended, ⟨t, there, taken, status⟩,
      fun t mem taken => answers t ((deciding same t).mpr ⟨mem, taken⟩)⟩
  · rintro ⟨ended, ⟨t, mem, taken, status⟩, answers⟩
    obtain ⟨failure, run⟩ := accepting_eq_some.mpr ⟨ended, rfl⟩
    refine Option.bind_eq_some_iff.mpr ⟨_, run, judge_eq_success.mpr ⟨⟨t, ?_, status⟩, ?_⟩⟩
    · exact (deciding rfl t).mpr ⟨mem, taken⟩
    · intro t mem
      obtain ⟨there, taken⟩ := (deciding rfl t).mp mem
      exact answers t there taken

theorem compareVariant_single :
    compareVariant older [t] variant = some .success ↔ takes older variant t = some .success ∧
      t.response.status = older.response.status ∧
      older.response.encompasses older.resolver t.resolver t.response = some .success := by
  rw [compareVariant_eq_success]
  simp only [List.mem_singleton, forall_eq, exists_eq_left]
  constructor
  · rintro ⟨-, ⟨taken, status⟩, answers⟩
    exact ⟨taken, status, answers taken status⟩
  · rintro ⟨taken, status, answers⟩
    exact ⟨by simp [taken], ⟨taken, status⟩, fun _ _ => answers⟩

theorem inScenario_eq_success {name : String} {verdict : Verdict} :
    verdict.inScenario name = .success ↔ verdict = .success := by
  cases verdict <;> simp [Verdict.inScenario]

theorem compareScenario_passes {newer : List Scenario} :
    (∃ verdicts, compareScenario newer older = some verdicts ∧ ∀ v ∈ verdicts, v = .success) ↔
      (newer.filter fun t => t.request.sameShape older.request) ≠ [] ∧
      ∃ variants, older.requestVariants (older.resolver.withCombinations .exhaustive) [] =
          pure variants ∧
        ∀ variant ∈ variants, compareVariant older
          (newer.filter fun t => t.request.sameShape older.request) variant = some .success := by
  have each {variants : List RequestPattern} {verdicts : List Verdict} {counterparts : List Scenario} :
      variants.mapM (fun variant => (compareVariant older counterparts variant).map
          (Verdict.inScenario older.name)) = some verdicts ∧ (∀ v ∈ verdicts, v = .success) →
        ∀ variant ∈ variants, compareVariant older counterparts variant = some .success := by
    rintro ⟨run, passed⟩ variant mem
    obtain ⟨i, place⟩ := List.mem_iff_getElem?.mp mem
    obtain ⟨v, there, outcome⟩ := getElem?_of_forall₂ (mapM_eq_some.mp run).flip place
    obtain ⟨own, found, named⟩ := Option.map_eq_some_iff.mp outcome
    rw [passed v (List.mem_of_getElem? there), inScenario_eq_success] at named
    rw [found, named]
  constructor
  · rintro ⟨verdicts, run, passed⟩
    obtain ⟨result, expansion, rest⟩ := Option.bind_eq_some_iff.mp run
    cases result with
    | error e =>
      cases rest
      simp [Verdict.fail, Verdict.under, Verdict.inScenario] at passed
    | ok variants =>
      dsimp only at rest
      split at rest
      · cases rest
        simp [apiRemoved, Verdict.fail, Verdict.under, Verdict.inScenario] at passed
      · next some_ => exact ⟨by simpa using some_, variants, expansion, each ⟨rest, passed⟩⟩
  · rintro ⟨some_, variants, expansion, all⟩
    refine ⟨variants.map fun _ => .success, Option.bind_eq_some_iff.mpr ⟨_, expansion, ?_⟩, by simp⟩
    dsimp only
    rw [if_neg (by simpa using some_)]
    refine mapM_eq_some.mpr (List.forall₂_map_right_iff.mpr (List.forall₂_same.mpr ?_))
    intro variant mem
    rw [all variant mem]
    rfl

theorem compare_passes {older newer : Feature} :
    (∃ report, compare older newer = some report ∧ report.failed = 0) ↔ ∀ s ∈ older.active,
      ∃ verdicts, compareScenario newer.active s = some verdicts ∧ ∀ v ∈ verdicts, v = .success := by
  have passed (verdicts : List Verdict) :
      (Report.mk verdicts).failed = 0 ↔ ∀ v ∈ verdicts, v = .success := by
    simp [Report.failed, List.countP_eq_zero, Verdict.isSuccess_iff]
  constructor
  · rintro ⟨report, run, none⟩ s mem
    obtain ⟨blocks, compared, same⟩ := Option.bind_eq_some_iff.mp run
    cases same
    obtain ⟨verdicts, there, outcome⟩ := exists_of_forall₂_mem (mapM_eq_some.mp compared).flip mem
    refine ⟨verdicts, outcome, fun v inside => ?_⟩
    exact (passed _).mp none v (List.mem_flatten.mpr ⟨verdicts, there, inside⟩)
  · intro all
    obtain ⟨blocks, compared⟩ := exists_forall₂ all
    have run := mapM_eq_some.mpr (compared.imp fun _ _ h => h.1)
    refine ⟨⟨blocks.flatten⟩, by simp [compare, run], (passed _).mpr fun v mem => ?_⟩
    obtain ⟨verdicts, there, inside⟩ := List.mem_flatten.mp mem
    obtain ⟨s, -, -, success⟩ := exists_of_forall₂_mem compared there
    exact success v inside

end Compatibility

section Expansions

variable {r : Resolver} {p x : Pattern} {xs : List Pattern}

theorem expands_of_expand (h : p.expand r [] = pure xs) :
    Expands r (Pattern.expandBound r [] p) [] p :=
  ⟨xs, h⟩

theorem variant_of_expand (h : p.expand r [] = pure xs) :
    Variant r (Pattern.expandBound r [] p) [] p x ↔ x ∈ xs := by
  constructor
  · rintro ⟨ys, again, mem⟩
    rw [← Attempt.pure_inj.mp (h.symm.trans again)] at mem
    exact mem
  · exact fun mem => ⟨xs, h, mem⟩

def PathPattern.filled (path : PathPattern) : Pattern → Option PathPattern
  | .object fields _ => some (path.withParams fields)
  | _ => none

def PathPattern.paramsObject (path : PathPattern) : Pattern :=
  Pattern.objectOf (Entries.ofList path.params) .json

theorem PathPattern.expand_eq_pure {path : PathPattern} {paths : List PathPattern} :
    path.expand r [] = pure paths ↔
      ∃ variants, path.paramsObject.expand r [] = pure variants ∧
        variants.filterMap path.filled = paths := by
  unfold PathPattern.expand
  rw [Attempt.bind_eq_pure]
  refine exists_congr fun variants => and_congr_right fun _ => ?_
  rw [Attempt.pure_inj]
  rfl

def RequestPattern.filled (request : RequestPattern) (path : PathPattern) (body : Pattern) :
    Pattern → Option RequestPattern
  | .object fields traits =>
      some { request with path, query := ⟨fields, traits.unexpected, traits.kind⟩, body }
  | _ => none

theorem requestVariants_forall {s : Scenario} {holds : RequestPattern → Prop} :
    (∃ variants, s.requestVariants r [] = pure variants ∧ ∀ variant ∈ variants, holds variant) ↔
      ∃ paths queries bodies, s.request.path.expand r [] = pure paths ∧
        s.request.query.toPattern.expand r [] = pure queries ∧
        s.request.body.expand r [] = pure bodies ∧
        ∀ path ∈ paths, ∀ query ∈ queries, ∀ body ∈ bodies, ∀ variant,
          s.request.filled path body query = some variant → holds variant := by
  have filled (query : Pattern) (path : PathPattern) (bodies : List Pattern)
      (variant : RequestPattern) :
      variant ∈ (match query with
        | .object fields traits => bodies.map fun body => { s.request with
            path, query := ⟨fields, traits.unexpected, traits.kind⟩, body }
        | _ => []) ↔ ∃ body ∈ bodies, s.request.filled path body query = some variant := by
    cases query <;> simp [RequestPattern.filled]
  simp only [Scenario.requestVariants, Attempt.bind_eq_pure, Attempt.under_eq_pure, Attempt.pure_inj]
  constructor
  · rintro ⟨_, ⟨paths, ofPath, queries, ofQuery, bodies, ofBody, rfl⟩, all⟩
    refine ⟨paths, queries, bodies, ofPath, ofQuery, ofBody, ?_⟩
    intro path hp query hq body hb variant same
    refine all variant (List.mem_flatMap.mpr ⟨path, hp, List.mem_flatMap.mpr ⟨query, hq, ?_⟩⟩)
    exact (filled query path bodies variant).mpr ⟨body, hb, same⟩
  · rintro ⟨paths, queries, bodies, ofPath, ofQuery, ofBody, all⟩
    refine ⟨_, ⟨paths, ofPath, queries, ofQuery, bodies, ofBody, rfl⟩, fun variant mem => ?_⟩
    obtain ⟨path, hp, mem⟩ := List.mem_flatMap.mp mem
    obtain ⟨query, hq, mem⟩ := List.mem_flatMap.mp mem
    obtain ⟨body, hb, same⟩ := (filled query path bodies variant).mp mem
    exact all path hp query hq body hb variant same

theorem exists_object_of_expand {r : Resolver} (registry : WrittenTypes r.types)
    (exhaustive : r.combinations = .exhaustive) {fields : List (String × Pattern)}
    {traits : ObjectTraits} {variants : List Pattern} (written : Written (.object fields traits))
    (expansion : (Pattern.object fields traits).expand r [] = pure variants) :
    ∃ members, .object members traits ∈ variants := by
  have expands := expands_of_expand expansion
  obtain ⟨x, variant⟩ := exists_variant registry exhaustive (.inl written) expands
  have mem := (variant_of_expand expansion).mp variant
  cases fuel : Pattern.expandBound r [] (.object fields traits) with
  | zero =>
    rw [fuel] at expands
    exact (not_expands_zero expands).elim
  | succ n =>
    rw [fuel] at variant
    obtain ⟨chosen, -, rfl⟩ := (variant_object exhaustive).mp variant
    exact ⟨_, mem⟩

theorem exists_path_of_expand {r : Resolver} (registry : WrittenTypes r.types)
    (exhaustive : r.combinations = .exhaustive) {path : PathPattern} {paths : List PathPattern}
    (written : ∀ param ∈ path.params, Written param.2) (expansion : path.expand r [] = pure paths) :
    ∃ x, x ∈ paths := by
  obtain ⟨variants, ofParams, rfl⟩ := PathPattern.expand_eq_pure.mp expansion
  have params : Written path.paramsObject :=
    written_objectOf fun field mem => written field (Entries.mem_of_mem_ofList mem)
  obtain ⟨members, mem⟩ := exists_object_of_expand registry exhaustive params ofParams
  exact ⟨_, List.mem_filterMap.mpr ⟨_, mem, rfl⟩⟩

theorem requestVariants_ne_nil {resolver : Resolver} {s : Scenario} {variants : List RequestPattern}
    (registry : WrittenTypes r.types) (exhaustive : r.combinations = .exhaustive)
    (written : WrittenScenario resolver s) (expansion : s.requestVariants r [] = pure variants) :
    variants ≠ [] := by
  rintro rfl
  obtain ⟨paths, queries, bodies, ofPath, ofQuery, ofBody, none⟩ :=
    requestVariants_forall.mp ⟨[], expansion, fun variant mem => List.not_mem_nil mem⟩
  obtain ⟨path, somePath⟩ := exists_path_of_expand registry exhaustive written.params ofPath
  obtain ⟨members, someQuery⟩ :=
    exists_object_of_expand registry exhaustive (.object written.query rfl) ofQuery
  obtain ⟨body, variant⟩ :=
    exists_variant registry exhaustive (.inl written.body) (expands_of_expand ofBody)
  have someBody := (variant_of_expand ofBody).mp variant
  exact none path somePath _ someQuery body someBody _ rfl

end Expansions

end ApiContract
