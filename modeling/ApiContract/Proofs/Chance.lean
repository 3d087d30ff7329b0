import ApiContract.Proofs.Escaping
import ApiContract.Proofs.Halting

set_option autoImplicit false

namespace ApiContract

theorem ContractError.isEndlessRecursion_iff {error : ContractError} :
    error.isEndlessRecursion ↔ ∃ name, error.root = .endlessRecursion name := by
  cases same : error.root <;> simp [isEndlessRecursion, same]

namespace Gen

variable {α β : Type} {gen : Gen α}

def Succeeds (gen : Gen α) : Prop :=
  gen.Always fun result => ∃ a, result = .ok a

def CutOff (gen : Gen α) : Prop :=
  gen.Always fun result =>
    ∃ error name, result = .error error ∧ error.root = .endlessRecursion name

def Settled (gen : Gen α) : Prop :=
  gen.Succeeds ∨ gen.CutOff

@[simp] theorem succeeds_value {a : α} : (Gen.value a).Succeeds :=
  ⟨a, rfl⟩

@[simp] theorem cutOff_failure {error : ContractError} :
    (Gen.failure error : Gen α).CutOff ↔ error.isEndlessRecursion := by
  simp [CutOff, Always, ContractError.isEndlessRecursion_iff]

theorem succeeds_draw {d : Draw} {next : d.Answer → Gen α} :
    (Gen.draw d next).Succeeds ↔ ∀ answer, (next answer).Succeeds :=
  Iff.rfl

theorem cutOff_draw {d : Draw} {next : d.Answer → Gen α} :
    (Gen.draw d next).CutOff ↔ ∀ answer, (next answer).CutOff :=
  Iff.rfl

theorem Succeeds.bind {f : α → Gen β} {Q : Contractual β → Prop} (h : gen.Succeeds)
    (next : ∀ a, (f a).Always Q) : (gen >>= f).Always Q :=
  Always.bind h (fun a _ => next a) fun _ ⟨_, same⟩ => nomatch same

theorem CutOff.bind {f : α → Gen β} (h : gen.CutOff) : (gen >>= f).CutOff := by
  refine Always.bind h (fun a ⟨_, _, same, _⟩ => nomatch same) fun error cut => ?_
  obtain ⟨_, name, same, root⟩ := cut
  cases same
  exact ⟨error, name, rfl, root⟩

theorem Succeeds.orElse {handler : ContractError → Gen α} (h : gen.Succeeds) :
    (gen.orElse handler).Succeeds :=
  Always.orElse h (fun _ ok => ok) fun _ ⟨_, same⟩ => nomatch same

theorem CutOff.orElse {handler : ContractError → Gen α} {Q : Contractual α → Prop}
    (h : gen.CutOff) (handled : ∀ error, error.isEndlessRecursion → (handler error).Always Q) :
    (gen.orElse handler).Always Q := by
  refine Always.orElse h (fun a ⟨_, _, same, _⟩ => nomatch same) fun error cut => ?_
  obtain ⟨_, name, same, root⟩ := cut
  cases same
  exact handled error (ContractError.isEndlessRecursion_iff.mpr ⟨name, root⟩)

theorem Settled.bind {f : α → Gen β} (h : gen.Settled)
    (next : (∀ a, (f a).Succeeds) ∨ ∀ a, (f a).CutOff) : (gen >>= f).Settled := by
  rcases h with succeeds | cut
  · exact next.imp (fun later => succeeds.bind later) fun later => succeeds.bind later
  · exact .inr cut.bind

theorem Settled.map {f : α → β} (h : gen.Settled) : (f <$> gen).Settled :=
  Settled.bind h (.inl fun _ => succeeds_value)

theorem Settled.under {crumb : String} (h : gen.Settled) : (gen.under crumb).Settled :=
  h.imp Succeeds.orElse fun cut => cut.orElse fun _ endless => cutOff_failure.mpr endless

theorem Settled.succeeds_of_run {a : α} (h : gen.Settled) (run : gen.RunsTo (.ok a)) :
    gen.Succeeds := by
  refine h.resolve_right fun cut => ?_
  obtain ⟨_, _, same, -⟩ := Always.of_runsTo cut run
  cases same

theorem Settled.cutOff_of_run {error : ContractError} (h : gen.Settled)
    (run : gen.RunsTo (.error error)) : gen.CutOff := by
  refine h.resolve_left fun succeeds => ?_
  obtain ⟨_, same⟩ := Always.of_runsTo succeeds run
  cases same

end Gen

open Gen

section Choices

variable {generate : Pattern → Gen Value} {alternatives : List Pattern} {last : ContractError}

theorem anyAlternative_succeeds {q : Pattern} (mem : q ∈ alternatives)
    (succeeds : (generate q).Succeeds) (settled : ∀ p ∈ alternatives, (generate p).Settled) :
    (anyAlternative generate alternatives last).Succeeds := by
  induction alternatives, last using anyAlternative.induct with
  | case1 => cases mem
  | case2 last first others ih =>
    rw [anyAlternative]
    refine succeeds_draw.mpr fun i : Fin (others.length + 1) => ?_
    by_cases own : (first :: others)[i] = q
    · rw [own]
      exact succeeds.orElse
    · rcases settled (first :: others)[i] (List.getElem_mem _) with drawn | cut
      · exact drawn.orElse
      · refine cut.orElse fun error endless => ?_
        rw [if_pos endless]
        refine ih i error (mem_eraseIdx_of_ne i.isLt mem own) fun p left => ?_
        exact settled p (List.mem_of_mem_eraseIdx left)

theorem anyAlternative_cutOff (each : ∀ p ∈ alternatives, (generate p).CutOff)
    (nothing : alternatives = [] → last.isEndlessRecursion) :
    (anyAlternative generate alternatives last).CutOff := by
  induction alternatives, last using anyAlternative.induct with
  | case1 last =>
    rw [anyAlternative]
    exact cutOff_failure.mpr (nothing rfl)
  | case2 last first others ih =>
    rw [anyAlternative]
    refine cutOff_draw.mpr fun i : Fin (others.length + 1) => ?_
    refine (each _ (List.getElem_mem _)).orElse fun error endless => ?_
    rw [if_pos endless]
    exact ih i error (fun p mem => each p (List.mem_of_mem_eraseIdx mem)) fun _ => endless

theorem anyAlternative_settled (some : alternatives ≠ [])
    (settled : ∀ p ∈ alternatives, (generate p).Settled) :
    (anyAlternative generate alternatives last).Settled := by
  by_cases one : ∃ q ∈ alternatives, (generate q).Succeeds
  · obtain ⟨q, mem, succeeds⟩ := one
    exact .inl (anyAlternative_succeeds mem succeeds settled)
  · refine .inr (anyAlternative_cutOff (fun p mem => ?_) fun none => absurd none some)
    exact (settled p mem).resolve_left fun succeeds => one ⟨p, mem, succeeds⟩

theorem generateField_settled {field : String × Pattern} (h : (generate field.2).Settled) :
    (generateField generate field).Settled := by
  rcases h.map (f := Option.some) with succeeds | cut
  · exact .inl succeeds.orElse
  · -- A key that may be left out is left out on every run, and any other one on none.
    cases optional : isOptional field.1 with
    | true =>
      refine .inl (cut.orElse fun error endless => ?_)
      rw [if_pos (by simp [optional, endless])]
      exact succeeds_value
    | false =>
      refine .inr (cut.orElse fun error endless => ?_)
      rw [if_neg (by simp [optional])]
      exact cutOff_failure.mpr endless

theorem generateFields_settled {fill : String × Pattern → Gen (Option Value)}
    {fields : List (String × Pattern)} (h : ∀ field ∈ fields, (fill field).Settled) :
    (∀ done, (generateFields fill fields done).Succeeds) ∨
      ∀ done, (generateFields fill fields done).CutOff := by
  -- What is already filled differs from run to run, so the rest must come to the same after all of it.
  induction fields with
  | nil => exact .inl fun _ => succeeds_value
  | cons field rest ih =>
    rcases h field List.mem_cons_self with succeeds | cut
    · have others := ih fun other mem => h other (List.mem_cons_of_mem field mem)
      refine others.imp (fun later done => ?_) fun later done => ?_
      all_goals exact succeeds.bind fun filling => by cases filling <;> exact later _
    · exact .inr fun done => cut.bind

theorem generateElements_settled {elements : List Pattern} {i : Nat}
    (h : ∀ p ∈ elements, (generate (oneItem p)).Settled) :
    (generateElements generate i elements).Settled := by
  induction elements generalizing i with
  | nil => exact .inl succeeds_value
  | cons p rest ih =>
    have first : (generate (oneItem p)).Settled := h p List.mem_cons_self
    have others : (generateElements generate (i + 1) rest).Settled :=
      ih fun q mem => h q (List.mem_cons_of_mem p mem)
    refine Settled.bind first.under (others.imp ?_ ?_)
    · exact fun later v => Succeeds.bind later fun _ => succeeds_value
    · exact fun later v => CutOff.bind later

end Choices

section Runs

variable {r : Resolver} {p q : Pattern} {fuel : Nat} {entered : List String}

structure Defined (r : Resolver) (p : Pattern) : Prop where
  names : ∀ name, Reaches r.types p (.reference name) → ∃ q, r.resolve (.reference name) = .ok q
  unions : ∀ alternatives, Reaches r.types p (.anyOf alternatives) → alternatives ≠ []

theorem Defined.draw (defined : Defined r p) (row : r.row = none) (draws : Draws r p q) :
    Defined r q := by
  have below (reach : Reaches r.types p q) : Defined r q :=
    ⟨fun name met => defined.names name (reach.trans met),
      fun alternatives met => defined.unions alternatives (reach.trans met)⟩
  cases draws with
  | behind behind =>
    rcases behind.unfolds with rfl | chain
    · exact ⟨fun _ met => (nomatch met.eq_null), fun _ met => (nomatch met.eq_null)⟩
    · exact below (.of_unfoldings chain.to_reflTransGen)
  | inner => exact below (Part.reaches .inner)
  | @element _ _ element mem =>
    cases element with
    | repeated => exact below (Part.reaches (.tail mem))
    | _ => exact below (Part.reaches (.element mem))
  | field mem => exact below (Part.reaches (.field mem))
  | token _ given =>
    rw [Resolver.cell?, row] at given
    cases given

theorem Defined.resolve (defined : Defined r p) : ∃ q, r.resolve p = .ok q := by
  cases p with
  | reference name => exact defined.names name (Reaches.refl _)
  | _ => exact ⟨_, Resolver.resolve_of_concrete nofun⟩

theorem unresolved?_eq_none {alternatives : List Pattern}
    (h : ∀ q ∈ alternatives, ∃ o, r.resolve q = .ok o) : unresolved? r alternatives = none := by
  induction alternatives with
  | nil => rfl
  | cons q rest ih =>
    obtain ⟨o, found⟩ := h q List.mem_cons_self
    rw [unresolved?, found]
    exact ih fun other mem => h other (List.mem_cons_of_mem q mem)

theorem generateWithin_settled (row : r.row = none) (defined : Defined r p) :
    (p.generateWithin fuel r entered).Settled := by
  induction fuel generalizing p entered with
  | zero => exact .inl trivial
  | succ fuel ih =>
    have next {q : Pattern} (draws : Draws r p q) : (q.generateWithin fuel r entered).Settled :=
      ih (defined.draw row draws)
    cases p with
    | string | number | boolean => exact .inl fun _ => succeeds_value
    | null | exact => exact .inl succeeds_value
    | url scheme => exact .inl fun _ _ => succeeds_value
    | repeated inner => exact Settled.bind (next .inner) (.inl fun _ => succeeds_value)
    | reference name =>
      dsimp only [Pattern.generateWithin]
      split
      · exact .inr (cutOff_failure.mpr rfl)
      · obtain ⟨q, found⟩ := defined.resolve
        rw [found]
        exact ih (defined.draw row (.behind (.reference found)))
    | anyOf alternatives =>
      have each (q : Pattern) (mem : q ∈ alternatives) : Draws r (.anyOf alternatives) q :=
        .behind (.anyOf mem)
      rw [Pattern.generateWithin,
        unresolved?_eq_none fun q mem => (defined.draw row (each q mem)).resolve]
      refine anyAlternative_settled (defined.unions alternatives (Reaches.refl _)) fun q mem => ?_
      exact next (each q mem)
    | object fields traits =>
      rw [generateWithin_object row]
      have each (field : String × Pattern) (mem : field ∈ fields) :
          (generateField (Pattern.generateWithin fuel r entered) field).Settled :=
        generateField_settled (next (.field mem (by rw [Resolver.cell?, row]; rfl)))
      have filled := generateFields_settled each
      exact Settled.map (filled.imp (fun succeeds => succeeds []) fun cut => cut [])
    | array elements knownAs =>
      exact Settled.map (generateElements_settled fun q mem => next (.element mem))

theorem generation_succeeds_or_cut_off (row : r.row = none) (defined : Defined r p) :
    (p.generate r).Ends ∧ ((p.generate r).Succeeds ∨ (p.generate r).CutOff) := by
  refine ⟨generation_ends fun given cells => ?_, generateWithin_settled row defined⟩
  rw [row] at cells
  cases cells

def Pattern.isDefined (r : Resolver) : Pattern → Bool
  | .reference name => (r.resolve (.reference name)).isOk
  | .anyOf alternatives => !alternatives.isEmpty
  | _ => true

theorem Defined.of_all (h : (reachable r.types p).all (Pattern.isDefined r)) : Defined r p where
  names name reach := by
    have found := List.all_eq_true.mp h _ reach.mem_reachable
    rw [Pattern.isDefined] at found
    cases known : r.resolve (.reference name) with
    | ok q => exact ⟨q, rfl⟩
    | error => simp [known, Except.isOk, Except.toBool] at found
  unions alternatives reach := by
    simpa [Pattern.isDefined] using List.all_eq_true.mp h _ reach.mem_reachable

theorem trees_regardless_of_chance :
    (grove.row = none ∧ Defined grove (.reference "Tree") ∧
      (Pattern.generate grove (.reference "Tree")).Ends ∧
      (Pattern.generate grove (.reference "Tree")).Succeeds) ∧
    (forest.row = none ∧ Defined forest (.reference "Tree") ∧
      (Pattern.generate forest (.reference "Tree")).Ends ∧
      (Pattern.generate forest (.reference "Tree")).CutOff) := by
  have fine : (reachable grove.types (.reference "Tree")).all (Pattern.isDefined grove) &&
      (reachable forest.types (.reference "Tree")).all (Pattern.isDefined forest) &&
      (Pattern.generate grove (.reference "Tree")).results.any Except.isOk := by decide +kernel
  simp only [Bool.and_eq_true, List.any_eq_true] at fine
  obtain ⟨⟨groves, forests⟩, result, drawn, ok⟩ := fine
  obtain ⟨ends, outcome⟩ := generation_succeeds_or_cut_off (r := grove) rfl (.of_all groves)
  obtain ⟨ends', outcome'⟩ := generation_succeeds_or_cut_off (r := forest) rfl (.of_all forests)
  refine ⟨⟨rfl, .of_all groves, ends, ?_⟩, rfl, .of_all forests, ends', ?_⟩
  · cases result with
    | ok v => exact Settled.succeeds_of_run outcome (.of_results drawn)
    | error => cases ok
  · obtain ⟨error, -, run⟩ := forest_endless
    exact Settled.cutOff_of_run outcome' run

end Runs

end ApiContract
