import Mathlib.Data.List.Pairwise
import ApiContract.Proofs.Expanding
import ApiContract.Proofs.Lockstep

set_option autoImplicit false

namespace ApiContract

def Scenario.patterns (s : Scenario) : List Pattern :=
  s.request.path.params.map Prod.snd ++
    [s.request.query.toPattern, s.request.headers.toPattern, s.request.body,
      s.response.headers.toPattern, s.response.body]

def PathPattern.isUniform (path : PathPattern) : Prop :=
  ∀ param ∈ path.params, ∀ other ∈ path.params, bareName other.1 = param.1 → other.2 = param.2

structure TidyFeature (feature : Feature) : Prop where
  guarded : Guarded feature.resolver.types
  patterns : ∀ s ∈ feature.active, ∀ p ∈ s.patterns, Tidy feature.resolver.types p
  paths : ∀ s ∈ feature.active, s.request.path.isUniform

theorem written_patterns {resolver : Resolver} {s : Scenario} (h : WrittenScenario resolver s) :
    ∀ p ∈ s.patterns, Written p := by
  intro p mem
  simp only [Scenario.patterns, List.mem_append, List.mem_map, List.mem_cons, List.not_mem_nil,
    or_false] at mem
  rcases mem with ⟨param, there, rfl⟩ | rfl | rfl | rfl | rfl | rfl
  · exact h.params param there
  · exact .object h.query rfl
  · exact .object h.headers rfl
  · exact h.body
  · exact .object h.headers' rfl
  · exact h.body'

theorem mem_zip_map {α β : Type} {f : α → β} {l : List α} {pair : α × β}
    (h : pair ∈ l.zip (l.map f)) : pair.1 ∈ l ∧ pair.2 = f pair.1 := by
  induction l with
  | nil => cases h
  | cons a rest ih =>
    rcases List.mem_cons.mp h with rfl | later
    · exact ⟨List.mem_cons_self, rfl⟩
    · exact (ih later).imp_left (List.mem_cons_of_mem a)

theorem exists_field_of_variant {r : Resolver} {fuel : Nat} {entered : List String}
    {fields : List (String × Pattern)} {traits : ObjectTraits} {x : Pattern}
    (exhaustive : r.combinations = .exhaustive)
    (h : Variant r fuel entered (.object fields traits) x) :
    ∃ members, x = .object members traits ∧ ∀ name y, Entries.get? members name = some y →
      ∃ field ∈ fields, bareName field.1 = name ∧ ∃ depth, Variant r depth entered field.2 y := by
  cases fuel with
  | zero => exact (not_expands_zero h.expands).elim
  | succ fuel =>
    obtain ⟨chosen, choices, rfl⟩ := (variant_object exhaustive).mp h
    refine ⟨_, rfl, fun name y found => ?_⟩
    have mem := Entries.mem_of_mem_ofList (Entries.mem_of_get? found)
    obtain ⟨field, there, same, variant⟩ := exists_of_forall₂_mem choices (mem_chosenFields.mp mem)
    exact ⟨field, there, same.symm, fuel, variant⟩

section Own

variable {r these those : Resolver} (guarded : Guarded r.types) (registry : WrittenTypes r.types)
  (exhaustive : r.combinations = .exhaustive) (first : these.types = r.types)
  (second : those.types = r.types)
include guarded registry exhaustive first second

theorem encompasses_self {p : Pattern} (regular : Regular r.types p) :
    Pattern.encompasses these those p p = some .success :=
  encompasses_of_narrows guarded registry exhaustive regular first second (.refl p)

theorem encompasses_variant {p x : Pattern} {variants : List Pattern} (regular : Regular r.types p)
    (expansion : p.expand r [] = pure variants) (mem : x ∈ variants) :
    Pattern.encompasses these those p x = some .success := by
  have variant := (variant_of_expand expansion).mpr mem
  exact encompasses_of_narrows guarded registry exhaustive regular first second
    (.of_splits guarded regular (.variant variant))

theorem path_encompasses_filled {path filled : PathPattern} {paths : List PathPattern}
    (regular : ∀ param ∈ path.params, Regular r.types param.2) (uniform : path.isUniform)
    (expansion : path.expand r [] = pure paths) (mem : filled ∈ paths) :
    path.encompasses these those filled = some .success := by
  obtain ⟨variants, ofParams, rfl⟩ := PathPattern.expand_eq_pure.mp expansion
  obtain ⟨x, there, fill⟩ := List.mem_filterMap.mp mem
  obtain ⟨members, rfl, source⟩ :=
    exists_field_of_variant exhaustive ((variant_of_expand ofParams).mpr there)
  cases fill
  unfold PathPattern.encompasses
  rw [Verdict.every_eq_success]
  rintro ⟨segment, other⟩ inside
  obtain ⟨own, same⟩ := mem_zip_map inside
  dsimp only at own same
  subst same
  cases segment with
  | literal text => rfl
  | param name p =>
    have param : (name, p) ∈ path.params := PathPattern.mem_params own
    have taken : Pattern.encompasses these those p ((Entries.get? members name).getD p) =
        some .success := by
      cases found : Entries.get? members name with
      | none => exact encompasses_self guarded registry exhaustive first second (regular _ param)
      | some y =>
        obtain ⟨field, declared, same, depth, variant⟩ := source name y found
        have inPath : field ∈ path.params :=
          Entries.mem_of_mem_ofList (List.mem_filter.mp declared).1
        rw [uniform _ param field inPath same] at variant
        exact encompasses_of_narrows guarded registry exhaustive (regular _ param) first second
          (.of_splits guarded (regular _ param) (.variant variant))
    simp [taken, Verdict.under]

-- Of two parameters of one name the last declaration fills both, so the first has to be alike.
example : PathPattern.expand { Resolver.empty with combinations := .exhaustive } []
    ⟨[.param "id" .number, .param "id" .string]⟩ =
      pure [⟨[.param "id" .string, .param "id" .string]⟩] := by
  rfl

end Own

theorem encompasses_refl {r : Resolver} {json : Json} {p : Pattern}
    (documented : Documented r.types) (guarded : Guarded r.types)
    (read : Pattern.ofJson json = .ok p) (tidy : Tidy r.types p) :
    Pattern.encompasses r r p p = some .success := by
  have regular : Regular r.types p := .of_written documented.written (written_ofJson read) tidy
  have same : r.types = (r.withCombinations .exhaustive).types := rfl
  rw [same] at guarded documented regular
  exact encompasses_self guarded documented.written rfl same same regular

theorem nullable_chain_takes_itself :
    Pattern.encompasses (featureOf (chainsText "(number)")).resolver
      (featureOf (chainsText "(number)")).resolver (patternOf (.string "(C?)"))
      (patternOf (.string "(C?)")) = some .success := by
  have fine : (Pattern.ofJson (.string "(C?)")).isOk &&
      !(featureOf (chainsText "(number)")).active.isEmpty &&
      isTidyPattern 1 (featureOf (chainsText "(number)")).resolver.types
        (patternOf (.string "(C?)")) := by decide +kernel
  simp only [Bool.and_eq_true, Bool.not_eq_true', List.isEmpty_eq_false_iff] at fine
  obtain ⟨⟨written, active⟩, tidy⟩ := fine
  obtain ⟨guarded, tidy⟩ := guarded_and_tidy tidy
  exact encompasses_refl (documented_feature (read_featureOf active)) guarded
    (ofJson_patternOf written) tidy

section Scenarios

variable {s : Scenario}

theorem sameShape_self (request : RequestPattern) : request.sameShape request := by
  have segments (l : List PathSegment) : (l.zip l).all fun pair => pair.1.sameShape pair.2 := by
    induction l with
    | nil => rfl
    | cons segment rest ih =>
      cases segment <;> simpa [PathSegment.sameShape] using ih
  simp [RequestPattern.sameShape, Text.sameIgnoringAsciiCase, PathPattern.sameShape, segments]

structure Upright (s : Scenario) : Prop where
  guarded : Guarded s.resolver.types
  registry : WrittenTypes s.resolver.types
  regular : ∀ p ∈ s.patterns, Regular s.resolver.types p
  uniform : s.request.path.isUniform

namespace Upright

variable (h : Upright s)
include h

theorem param {param : String × Pattern} (mem : param ∈ s.request.path.params) :
    Regular s.resolver.types param.2 :=
  h.regular _ (List.mem_append_left _ (List.mem_map_of_mem mem))

theorem takes_self {p : Pattern} (mem : p ∈ s.patterns) :
    Pattern.encompasses s.resolver s.resolver p p = some .success := by
  have same : s.resolver.types = (s.resolver.withCombinations .exhaustive).types := rfl
  have guarded : Guarded (s.resolver.withCombinations .exhaustive).types := h.guarded
  exact encompasses_self guarded h.registry rfl same same (h.regular p mem)

theorem answers : s.response.encompasses s.resolver s.resolver s.response = some .success := by
  rw [ResponsePattern.encompasses_eq_success]
  refine ⟨rfl, ?_, ?_⟩ <;> apply h.takes_self <;> simp [Scenario.patterns]

theorem takes_variants : ∃ variants,
    s.requestVariants (s.resolver.withCombinations .exhaustive) [] = pure variants ∧
      ∀ variant ∈ variants, Compatibility.takes s variant s = some .success := by
  have same : s.resolver.types = (s.resolver.withCombinations .exhaustive).types := rfl
  have guarded : Guarded (s.resolver.withCombinations .exhaustive).types := h.guarded
  have registry : WrittenTypes (s.resolver.withCombinations .exhaustive).types := h.registry
  have regular (p : Pattern) (mem : p ∈ s.patterns) :
      Regular (s.resolver.withCombinations .exhaustive).types p := h.regular p mem
  have params (param : String × Pattern) (mem : param ∈ s.request.path.params) :
      Regular (s.resolver.withCombinations .exhaustive).types param.2 := h.param mem
  have ofPath : ∃ paths,
      s.request.path.expand (s.resolver.withCombinations .exhaustive) [] = pure paths := by
    have fields (field : String × Pattern)
        (mem : field ∈ Entries.erase (Entries.ofList s.request.path.params) openKey) :=
      params field (Entries.mem_of_mem_ofList (List.mem_filter.mp mem).1)
    obtain ⟨variants, ofParams⟩ := exists_expansion_of_fields guarded rfl fields
    exact ⟨_, PathPattern.expand_eq_pure.mpr ⟨variants, ofParams, rfl⟩⟩
  have query := regular s.request.query.toPattern (by simp [Scenario.patterns])
  have body := regular s.request.body (by simp [Scenario.patterns])
  obtain ⟨paths, ofPath⟩ := ofPath
  obtain ⟨queries, ofQuery⟩ := exists_expansion guarded rfl query
  obtain ⟨bodies, ofBody⟩ := exists_expansion guarded rfl body
  refine requestVariants_forall.mpr ⟨paths, queries, bodies, ofPath, ofQuery, ofBody, ?_⟩
  intro path somePath x someQuery y someBody variant filled
  have queryTaken := encompasses_variant guarded registry rfl same same query ofQuery someQuery
  obtain ⟨members, rfl, -⟩ :=
    exists_field_of_variant rfl ((variant_of_expand ofQuery).mpr someQuery)
  cases filled
  refine RequestPattern.encompasses_eq_success.mpr ⟨?_, queryTaken, ?_, ?_⟩
  · exact path_encompasses_filled guarded registry rfl same same params h.uniform ofPath somePath
  · exact h.takes_self (by simp [Scenario.patterns])
  · exact encompasses_variant guarded registry rfl same same body ofBody someBody

end Upright

def Agrees (s t : Scenario) : Prop :=
  ∀ variants, s.requestVariants (s.resolver.withCombinations .exhaustive) [] = pure variants →
    ∀ variant ∈ variants, (Compatibility.takes s variant t).isSome ∧
      (Compatibility.takes s variant t = some .success → t.response.status = s.response.status →
        s.response.encompasses s.resolver t.resolver t.response = some .success)

theorem compareScenario_own_passes {scenarios : List Scenario} (upright : Upright s)
    (mem : s ∈ scenarios) :
    (∃ verdicts, Compatibility.compareScenario scenarios s = some verdicts ∧
        ∀ v ∈ verdicts, v = .success) ↔
      ∀ t ∈ scenarios, t ≠ s → t.request.sameShape s.request → Agrees s t := by
  have inside {t : Scenario} :
      t ∈ (scenarios.filter fun t => t.request.sameShape s.request) ↔
        t ∈ scenarios ∧ t.request.sameShape s.request := List.mem_filter
  have own := inside.mpr ⟨mem, sameShape_self s.request⟩
  obtain ⟨variants, expansion, taken⟩ := upright.takes_variants
  rw [Compatibility.compareScenario_passes]
  constructor
  · rintro ⟨-, others, expansion', all⟩ t there _ shape found expansion'' variant given
    rw [expansion', Attempt.pure_inj] at expansion''
    subst expansion''
    have verdict := Compatibility.compareVariant_eq_success.mp (all variant given)
    exact ⟨verdict.1 t (inside.mpr ⟨there, shape⟩), verdict.2.2 t (inside.mpr ⟨there, shape⟩)⟩
  · intro agrees
    refine ⟨List.ne_nil_of_mem own, variants, expansion, fun variant given => ?_⟩
    rw [Compatibility.compareVariant_eq_success]
    refine ⟨fun t counterpart => ?_, ⟨s, own, taken variant given, rfl⟩, fun t counterpart => ?_⟩ <;>
      obtain ⟨there, shape⟩ := inside.mp counterpart <;> by_cases same : t = s
    · rw [same, taken variant given]
      rfl
    · exact (agrees t there same shape variants expansion variant given).1
    · intro _ _
      rw [same]
      exact upright.answers
    · exact (agrees t there same shape variants expansion variant given).2

end Scenarios

def isTidyFeature (n : Nat) (feature : Feature) : Bool :=
  (feature.resolver.types.all fun type => settlesWithin feature.resolver.types n type.2)
    && feature.active.all fun s => decide (s.request.path.params.length ≤ 1)
      && s.patterns.all fun p =>
        (reachable feature.resolver.types p).all (Pattern.isTidy feature.resolver.types)

theorem TidyFeature.of_all {n : Nat} {feature : Feature} (h : isTidyFeature n feature) :
    TidyFeature feature := by
  simp only [isTidyFeature, Bool.and_eq_true, decide_eq_true_eq, List.all_eq_true] at h
  obtain ⟨settles, each⟩ := h
  refine ⟨.of_settles n (List.all_eq_true.mpr settles), fun s mem p inside => ?_, fun s mem => ?_⟩
  · exact .of_all (List.all_eq_true.mpr ((each s mem).2 p inside))
  · intro param first other second _
    have few := (each s mem).1
    cases all : s.request.path.params with
    | nil =>
      rw [all] at first
      cases first
    | cons own rest =>
      rw [all, List.length_cons] at few
      obtain rfl : rest = [] := List.eq_nil_of_length_eq_zero (by omega)
      rw [all, List.mem_singleton] at first second
      rw [first, second]

theorem agree_of_shapes {scenarios : List Scenario}
    (shapes : scenarios.Pairwise fun s t =>
      t.request.sameShape s.request = false ∧ s.request.sameShape t.request = false) :
    ∀ s ∈ scenarios, ∀ t ∈ scenarios, t ≠ s → t.request.sameShape s.request → Agrees s t := by
  intro s first t second other shape
  have symmetric : Std.Symm fun s t : Scenario =>
      t.request.sameShape s.request = false ∧ s.request.sameShape t.request = false :=
    ⟨fun _ _ h => ⟨h.2, h.1⟩⟩
  have apart := shapes.forall first second (Ne.symm other)
  rw [apart.1] at shape
  cases shape

/-- A contract passes against itself exactly when scenarios of one shape agree. -/
theorem compare_self_passes {feature : Feature} {source : String}
    (read : Feature.read source = .ok feature) (tidy : TidyFeature feature) :
    (∃ report, Compatibility.compare feature feature = some report ∧ report.failed = 0) ↔
      ∀ s ∈ feature.active, ∀ t ∈ feature.active, t ≠ s →
        t.request.sameShape s.request → Agrees s t := by
  have written := written_feature read
  rw [Compatibility.compare_passes]
  refine forall₂_congr fun s mem => ?_
  have ofScenario := written.scenarios s (List.mem_filter.mp mem).1
  have same := ofScenario.resolver
  have regular (p : Pattern) (inside : p ∈ s.patterns) : Regular feature.resolver.types p :=
    .of_written written.types (written_patterns ofScenario p inside) (tidy.patterns s mem p inside)
  have upright : Upright s :=
    ⟨same ▸ tidy.guarded, same ▸ written.types, same ▸ regular, tidy.paths s mem⟩
  exact compareScenario_own_passes upright mem

def chainStoreText : String :=
  "[\"\",\x7b\"C\":\x7b\"v\":\"(number)\",\"n?\":\"(C)\"\x7d\x7d,\x7b\x7d,"
    ++ "[[\"\",[],[\"PUT\",\"/(id:number)\",\x7b\x7d,\x7b\x7d,\"(C)\"],[200]],"
    ++ "[\"\",[],[\"GET\",\"/(id:number)\",\x7b\"q?\":\"(boolean)\"\x7d],[200,\x7b\x7d,\"(C?)\"]]]]"

theorem chain_store_passes : ∃ report,
    Compatibility.compare (featureOf chainStoreText) (featureOf chainStoreText) = some report ∧
      report.failed = 0 := by
  have fine : isTidyFeature 1 (featureOf chainStoreText) &&
      !(featureOf chainStoreText).active.isEmpty &&
      decide ((featureOf chainStoreText).active.Pairwise fun s t =>
        t.request.sameShape s.request = false ∧ s.request.sameShape t.request = false) := by
    decide +kernel
  simp only [Bool.and_eq_true, Bool.not_eq_true', List.isEmpty_eq_false_iff, decide_eq_true_eq]
    at fine
  obtain ⟨⟨tidy, active⟩, shapes⟩ := fine
  exact (compare_self_passes (read_featureOf active) (.of_all tidy)).mpr (agree_of_shapes shapes)

def twoAnswersText : String :=
  "[\"\",\x7b\x7d,\x7b\x7d,[[\"a\",[],[\"GET\",\"/x\"],[200,\x7b\x7d,\"(number)\"]],"
    ++ "[\"b\",[],[\"GET\",\"/x\"],[200,\x7b\x7d,\"(string)\"]]]]"

theorem two_answers_fail : ∃ feature report, Feature.read twoAnswersText = .ok feature ∧
    TidyFeature feature ∧ Compatibility.compare feature feature = some report ∧
      report.failed = 2 := by
  have run : isTidyFeature 1 (featureOf twoAnswersText) &&
      !(featureOf twoAnswersText).active.isEmpty &&
      (Compatibility.compare (featureOf twoAnswersText) (featureOf twoAnswersText)).any
        fun report => report.failed = 2 := by decide +kernel
  simp only [Bool.and_eq_true, Bool.not_eq_true', List.isEmpty_eq_false_iff, Option.any_eq_true,
    decide_eq_true_eq] at run
  obtain ⟨⟨tidy, active⟩, report, compared, failed⟩ := run
  exact ⟨_, report, read_featureOf active, .of_all tidy, compared, failed⟩

end ApiContract
