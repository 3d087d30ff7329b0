import ApiContract.Proofs.Escaping
import ApiContract.Stub

set_option autoImplicit false

namespace ApiContract

section Stubs

variable {feature : Feature} {scenarios : List Scenario} {pairs : List (String × StubRecord)}
  {stubs : Entries StubRecord} {name : String} {record : StubRecord}

inductive Scenario.Generates (scenario : Scenario) : String × StubRecord → Prop
  | http {request : HttpRequest} {response : HttpResponse}
      (asked : scenario.generateRequest.RunsTo (.ok request))
      (answered : scenario.generateResponse.RunsTo (.ok response)) :
      Generates scenario (scenario.name, .http request response none)

def Feature.last? (feature : Feature) (name : String) : Option Scenario :=
  feature.active.reverse.find? fun scenario => scenario.name = name

theorem generateStub_runsTo {scenario : Scenario} {stub : String × StubRecord} :
    (Feature.generateStub scenario).RunsTo (.ok stub) ↔ scenario.Generates stub := by
  simp only [Feature.generateStub, Gen.runsTo_bind, Gen.runsTo_under, Gen.runsTo_pure]
  constructor
  · rintro ⟨request, asked, response, answered, rfl⟩
    exact .http asked answered
  · rintro ⟨asked, answered⟩
    exact ⟨_, asked, _, answered, rfl⟩

theorem generateAll_runsTo :
    (Feature.generateAll scenarios).RunsTo (.ok pairs) ↔
      List.Forall₂ Scenario.Generates scenarios pairs := by
  induction scenarios generalizing pairs with
  | nil => simp [Feature.generateAll]
  | cons scenario rest ih =>
    simp only [Feature.generateAll, Gen.runsTo_bind, Gen.runsTo_pure, generateStub_runsTo, ih]
    constructor
    · rintro ⟨stub, first, others, later, rfl⟩
      exact .cons first later
    · intro each
      obtain ⟨stub, others, first, later, rfl⟩ := List.forall₂_cons_left_iff.mp each
      exact ⟨stub, first, others, later, rfl⟩

theorem generateStubs_runsTo :
    feature.generateStubs.RunsTo (.ok stubs) ↔
      ∃ pairs, List.Forall₂ Scenario.Generates feature.active pairs ∧ stubs = Entries.ofList pairs := by
  simp only [Feature.generateStubs, Gen.runsTo_bind, Gen.runsTo_pure, generateAll_runsTo]

theorem keys_of_generates (each : List.Forall₂ Scenario.Generates scenarios pairs) :
    Entries.keys pairs = scenarios.map Scenario.name := by
  induction each with
  | nil => rfl
  | cons first _ ih =>
    cases first
    exact congrArg _ ih

theorem exists_scenario_of_get? (each : List.Forall₂ Scenario.Generates scenarios pairs)
    (found : Entries.get? pairs name = some record) :
    ∃ scenario, scenarios.find? (fun scenario => scenario.name = name) = some scenario ∧
      scenario.Generates (name, record) := by
  induction each with
  | nil => cases found
  | @cons scenario stub rest others first _ ih =>
    cases first with
    | http asked answered =>
      rw [Entries.get?_cons] at found
      split at found
      · next own =>
        cases found
        exact ⟨scenario, List.find?_cons_of_pos (decide_eq_true own), own ▸ .http asked answered⟩
      · next other =>
        rw [List.find?_cons_of_neg (by simpa using other)]
        exact ih found

/-- Each name has one stub, of the last active scenario that bears it, so the stubs are as many as
the active scenarios, each with its own, exactly where no two of these share a name. -/
theorem stubs_by_name (run : feature.generateStubs.RunsTo (.ok stubs)) :
    Entries.keys stubs = (feature.active.map Scenario.name).eraseDups ∧
      (∀ name record, (name, record) ∈ stubs →
        ∃ scenario, feature.last? name = some scenario ∧ scenario.Generates (name, record)) ∧
      (stubs.length = feature.active.length ↔ (feature.active.map Scenario.name).Nodup) ∧
      ((feature.active.map Scenario.name).Nodup →
        List.Forall₂ Scenario.Generates feature.active stubs) := by
  obtain ⟨pairs, each, rfl⟩ := generateStubs_runsTo.mp run
  have names : Entries.keys pairs = feature.active.map Scenario.name := keys_of_generates each
  refine ⟨by rw [Entries.keys_ofList, names], fun name record mem => ?_, ?_, fun distinct => ?_⟩
  · have found : Entries.get? pairs.reverse name = some record := by
      rw [← Entries.get?_ofList]
      exact Entries.get?_of_mem (Entries.distinct_ofList pairs) mem
    exact exists_scenario_of_get? (List.forall₂_reverse_iff.mpr each) found
  · rw [each.length_eq, Entries.length_ofList_iff, Entries.Distinct, names]
  · rw [← names] at distinct
    rwa [Entries.ofList_of_distinct distinct]

end Stubs

def petText (first second : String) : String :=
  "[\"\",\x7b\x7d,\x7b\x7d,[[\"" ++ first ++ "\",[],[\"GET\",\"/\"],[200,\x7b\x7d,\"(boolean)\"]],"
    ++ "[\"pets\",[\"WIP\"],[\"GET\",\"/\"],[200]],"
    ++ "[\"" ++ second ++ "\",[],[\"PUT\",\"/\",\x7b\x7d,\x7b\x7d,\"(boolean)\"],[200]]]]"

theorem pets_kept_apart : ∃ stubs,
    (featureOf (petText "ask" "change")).generateStubs.RunsTo (.ok stubs) ∧ stubs.length = 2 ∧
      List.Forall₂ Scenario.Generates (featureOf (petText "ask" "change")).active stubs := by
  have fine : decide ((featureOf (petText "ask" "change")).active.map Scenario.name =
        ["ask", "change"]) &&
      (featureOf (petText "ask" "change")).generateStubs.results.any fun result => result.isOk := by
    decide +kernel
  simp only [Bool.and_eq_true, decide_eq_true_eq] at fine
  obtain ⟨names, runs⟩ := fine
  obtain ⟨stubs, run⟩ := Gen.exists_runsTo_of_results runs
  obtain ⟨-, -, -, own⟩ := stubs_by_name run
  have each := own (by rw [names]; decide)
  have active := congrArg List.length names
  exact ⟨stubs, run, by rw [← each.length_eq]; simpa using active, each⟩

theorem pet_lost : ∃ feature, Feature.read (petText "pet" "pet") = .ok feature ∧
    feature.active.length = 2 ∧ (∃ stubs, feature.generateStubs.RunsTo (.ok stubs)) ∧
      ∀ stubs, feature.generateStubs.RunsTo (.ok stubs) → Entries.keys stubs = ["pet"] := by
  have fine : decide ((featureOf (petText "pet" "pet")).active.map Scenario.name =
        ["pet", "pet"]) &&
      (featureOf (petText "pet" "pet")).generateStubs.results.any fun result => result.isOk := by
    decide +kernel
  simp only [Bool.and_eq_true, decide_eq_true_eq] at fine
  obtain ⟨names, runs⟩ := fine
  have active : (featureOf (petText "pet" "pet")).active ≠ [] := fun none => by simp [none] at names
  refine ⟨_, read_featureOf active, by simpa using congrArg List.length names,
    Gen.exists_runsTo_of_results runs, fun stubs run => ?_⟩
  obtain ⟨pairs, each, rfl⟩ := generateStubs_runsTo.mp run
  rw [Entries.keys_ofList, keys_of_generates each, names]
  rfl

end ApiContract
