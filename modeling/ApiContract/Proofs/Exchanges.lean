import ApiContract.Proofs.Requests
import ApiContract.Proofs.Rereading

set_option autoImplicit false

namespace ApiContract

section Texts

variable {r : Resolver} {p : Pattern} {v : Value} {object : ObjectPattern}
  {members : Entries Value}

theorem ReadsBack.parse (h : ReadsBack r p v) (guarded : Guarded r.types) :
    ∃ u, p.parse r v.toText = some (.ok u) ∧ Accepts r p u := by
  refine h _ (settlesWithin_mono (guarded.settles p) ?_)
  rw [Resolver.size]
  omega

theorem readTexts_of_parse (keys : BareKeys object.fields)
    (reads : ∀ member ∈ members, ∃ field ∈ object.fields, bareName field.1 = member.1 ∧
      ∃ u, field.2.parse r member.2.toText = some (.ok u) ∧ Accepts r field.2 u) :
    ∃ read, object.readTexts r (Entries.mapValues Value.toText members) = some (.ok read) ∧
      Entries.keys read = Entries.keys members ∧
      ∀ member ∈ read, ∃ field ∈ object.fields,
        bareName field.1 = member.1 ∧ Accepts r field.2 member.2 := by
  induction members with
  | nil => exact ⟨[], rfl, rfl, nofun⟩
  | cons member rest ih =>
    obtain ⟨key, v⟩ := member
    obtain ⟨first, later⟩ := List.forall_mem_cons.mp reads
    obtain ⟨field, known, rfl, u, parsed, ok⟩ := first
    obtain ⟨read, run, same, fits⟩ := ih later
    refine ⟨(bareName field.1, u) :: read, ?_, congrArg (bareName field.1 :: ·) same,
      List.forall_mem_cons.mpr ⟨⟨field, known, rfl, ok⟩, fits⟩⟩
    have found : field? object.fields (bareName field.1) = some field := keys.field?_of_mem known
    simp only [Entries.mapValues, List.map_cons, ObjectPattern.readTexts, found, parsed] at run ⊢
    simp [run, Except.map]

theorem exists_readTexts {Q : Pattern → Value → Prop} (keys : BareKeys object.fields)
    (filled : Fills Q object.fields members)
    (back : ∀ field ∈ object.fields, ∀ member ∈ members, Q field.2 member.2 →
      ∃ u, field.2.parse r member.2.toText = some (.ok u) ∧ Accepts r field.2 u) :
    ∃ read, object.readTexts r (Entries.mapValues Value.toText members) = some (.ok read) ∧
      Fills (Accepts r) object.fields read := by
  obtain ⟨read, run, same, fits⟩ := readTexts_of_parse keys fun member mem => by
    obtain ⟨field, known, name, own⟩ := filled.declared member mem
    exact ⟨field, known, name, back field known member mem own⟩
  refine ⟨read, run, ?_, fits, ?_⟩
  · rw [Entries.Distinct, same]
    exact filled.distinct
  · rw [same]
    exact filled.required

def RereadsTexts (r : Resolver) (object : ObjectPattern) : Prop :=
  (object.toPattern.generate r).Gives fun v =>
    ∀ members, v = .object members → ∀ member ∈ members, Rereads member.2

theorem generate_object_gives {Q : Pattern → Value → Prop} (row : r.row = none)
    (h : ∀ field ∈ object.fields, ∀ n, (field.2.generateWithin n r []).Gives (Q field.2)) :
    (object.toPattern.generate r).Gives fun v =>
      ∃ members, v = .object members ∧ Fills Q object.fields members := by
  obtain ⟨n, bound⟩ : ∃ n, object.toPattern.generateBound r = n + 1 :=
    Nat.exists_eq_succ_of_ne_zero (by simp [Pattern.generateBound])
  rw [Pattern.generate, bound, ObjectPattern.toPattern, generateWithin_object row]
  refine Gen.gives_map.mpr (Gen.Gives.imp (generateFields_gives Fills.nil fun field mem =>
    generateField_gives (h field mem n)) fun members filled => ⟨members, rfl, filled⟩)

theorem rereadsTexts_of_plain (row : r.row = none)
    (plain : ∀ field ∈ object.fields, ∀ q, Reaches r.types field.2 q → q.isPlain) :
    RereadsTexts r object := by
  refine (generate_object_gives (Q := fun _ => Rereads) row fun field mem n =>
    generateWithin_rereads (plain field mem)).imp ?_
  rintro _ ⟨members, rfl, filled⟩ _ same member mem
  cases same
  obtain ⟨field, -, -, rereads⟩ := filled.declared member mem
  exact rereads

variable (guarded : Guarded r.types)
include guarded

theorem generate_taken (row : r.row = none) (fillable : Fillable r.types p) :
    (p.generate r).Gives fun v => checkBody r p v = some .success := by
  refine (generateWithin_accepted guarded row fillable).imp fun v accepted => ?_
  rw [checkBody, accepted]
  rfl

theorem checkTexts_of_fills (clear : Clear r.types object.toPattern)
    (filled : Fills (ReadsBack r) object.fields members) :
    object.checkTexts r (Entries.mapValues Value.toText members) = some .success := by
  have keys : BareKeys object.fields := clear.keys _ _ (Reaches.refl _)
  obtain ⟨read, run, fills⟩ := exists_readTexts keys filled fun _ _ _ _ reads => reads.parse guarded
  have accepted : object.check r (.object read) = some .success :=
    (accepts_object guarded clear.registered).mpr ⟨read, rfl, fills.fits keys.distinct⟩
  rw [ObjectPattern.checkTexts, run]
  exact accepted

theorem generateTexts_gives (row : r.row = none)
    (nulls : ∀ name p, registered? r.types name = some p → p ≠ .exact .null)
    (legible : Legible r.types object.toPattern)
    (plain : ∀ field ∈ object.fields, field.2 ≠ .exact .null) (rereads : RereadsTexts r object) :
    (object.generateTexts r).Gives fun texts => ∃ members,
      texts = Entries.mapValues Value.toText members ∧
        Fills (ReadsBack r) object.fields members := by
  have drawn := generate_object_gives (Q := fun p v => Rereads v → ReadsBack r p v) row
    fun field mem n => generateWithin_reads guarded row nulls
      (legible.of_reaches (Part.reaches (.field mem))) (plain field mem)
  refine Gen.gives_bind.mpr ((drawn.and rereads).imp ?_)
  rintro _ ⟨⟨members, rfl, filled⟩, back⟩
  refine Gen.gives_value.mpr ⟨members, rfl, filled.distinct, fun member mem => ?_, filled.required⟩
  obtain ⟨field, known, name, reads⟩ := filled.declared member mem
  exact ⟨field, known, name, reads (back members rfl member mem)⟩

end Texts

section Headers

variable {Q : Pattern → Value → Prop} {fields : List (String × Pattern)} {members : Entries Value}

theorem lower_bareName {key : String} (lower : Text.asciiLower key = key) :
    Text.asciiLower (bareName key) = bareName key := by
  have letters := congrArg String.toList lower
  rw [Text.asciiLower, String.toList_map] at letters
  unfold bareName
  split
  · apply String.toList_inj.mp
    rw [Text.asciiLower, String.toList_map, String.toList_ofList, List.map_dropLast, letters]
  · exact lower

theorem lowerKeys_of_fills (filled : Fills Q fields members)
    (lower : ∀ field ∈ fields, Text.asciiLower field.1 = field.1) :
    lowerKeys (Entries.mapValues Value.toText members) =
      Entries.mapValues Value.toText members := by
  have same : (Entries.mapValues Value.toText members).map
      (fun header => (Text.asciiLower header.1, header.2)) =
        Entries.mapValues Value.toText members := by
    rw [Entries.mapValues, List.map_map]
    refine List.map_congr_left fun member mem => ?_
    obtain ⟨field, known, name, -⟩ := filled.declared member mem
    have own : Text.asciiLower member.1 = member.1 := name ▸ lower_bareName (lower field known)
    simp only [Function.comp_apply, own]
  rw [lowerKeys, same, Entries.ofList_of_distinct (Entries.distinct_mapValues.mpr filled.distinct)]

theorem generateTexts_taken {r : Resolver} {object : ObjectPattern} (guarded : Guarded r.types)
    (row : r.row = none) (nulls : ∀ name p, registered? r.types name = some p → p ≠ .exact .null)
    (legible : Legible r.types object.toPattern)
    (plain : ∀ field ∈ object.fields, field.2 ≠ .exact .null) (rereads : RereadsTexts r object) :
    (object.generateTexts r).Gives fun texts =>
      object.checkTexts r texts = some .success ∧
        ((∀ field ∈ object.fields, Text.asciiLower field.1 = field.1) →
          lowerKeys texts = texts) := by
  refine (generateTexts_gives guarded row nulls legible plain rereads).imp ?_
  rintro _ ⟨members, rfl, filled⟩
  exact ⟨checkTexts_of_fills guarded legible.clear filled, lowerKeys_of_fills filled⟩

end Headers

section Scenarios

structure ClearScenario (s : Scenario) : Prop where
  guarded : Guarded s.resolver.types
  query : Clear s.resolver.types s.request.query.toPattern
  headers : Clear s.resolver.types s.request.headers.toPattern
  body : Clear s.resolver.types s.request.body
  headers' : Clear s.resolver.types s.response.headers.toPattern
  body' : Clear s.resolver.types s.response.body

structure RereadsScenario (s : Scenario) : Prop where
  query : RereadsTexts s.resolver s.request.query
  headers : RereadsTexts s.resolver s.request.headers
  headers' : RereadsTexts s.resolver s.response.headers

theorem checkResponse_eq_success {s : Scenario} {response : HttpResponse} :
    s.checkResponse response = some .success ↔ s.response.status = response.status ∧
      s.response.headers.checkTexts s.resolver (lowerKeys response.headers) = some .success ∧
      checkBody s.resolver s.response.body response.body = some .success := by
  rw [Scenario.checkResponse, checkUnder_eq_success]
  by_cases same : s.response.status = response.status
  · simp [same, Verdict.thenCheck_eq_success, checkUnder_eq_success]
  · simp [same, Verdict.fail, Verdict.under]

theorem generated_taken {source : String} {feature : Feature} {s : Scenario}
    (read : Feature.read source = .ok feature) (mem : s ∈ feature.scenarios)
    (clear : ClearScenario s) (rereads : RereadsScenario s) :
    (s.generateRequest.Gives fun request =>
      s.request.query.checkTexts s.resolver request.query = some .success ∧
      s.request.headers.checkTexts s.resolver request.headers = some .success ∧
      checkBody s.resolver s.request.body request.body = some .success) ∧
    s.generateResponse.Gives fun response => s.checkResponse response = some .success := by
  have written := (written_feature read).scenarios s mem
  have registry : WrittenTypes s.resolver.types := written.resolver ▸ (written_feature read).types
  have documented : Documented s.resolver.types := written.resolver ▸ documented_feature read
  have row : s.resolver.row = none := written.resolver ▸ rowless_feature read
  have plain := written.plain
  have lower := written.lower
  simp only [List.mem_append, or_imp, forall_and] at plain lower
  have texts {object : ObjectPattern} (fields : ∀ field ∈ object.fields, Written field.2)
      (own : Clear s.resolver.types object.toPattern) :=
    generateTexts_taken clear.guarded row (fun _ _ => documented.ne_nullLiteral)
      (.of_written registry (.object fields rfl) own)
  have body {p : Pattern} (own : Written p) (clear' : Clear s.resolver.types p) :=
    generate_taken clear.guarded row (Legible.of_written registry own clear').fillable
  constructor
  · refine Gen.gives_bind.mpr (Gen.gives_of_forall fun path => ?_)
    refine Gen.gives_bind.mpr (Gen.Gives.imp (texts written.query clear.query plain.1.1
      rereads.query).under fun query takesQuery => ?_)
    refine Gen.gives_bind.mpr (Gen.Gives.imp (texts written.headers clear.headers plain.1.2
      rereads.headers).under fun headers takesHeaders => ?_)
    refine Gen.gives_bind.mpr (Gen.Gives.imp (body written.body clear.body).under
      fun body takesBody => ?_)
    exact Gen.gives_pure.mpr ⟨takesQuery.1, takesHeaders.1, takesBody⟩
  · refine Gen.gives_bind.mpr (Gen.Gives.imp (texts written.headers' clear.headers' plain.2
      rereads.headers').under fun headers takesHeaders => ?_)
    refine Gen.gives_bind.mpr (Gen.Gives.imp (body written.body' clear.body').under
      fun body takesBody => ?_)
    refine Gen.gives_pure.mpr (checkResponse_eq_success.mpr ⟨rfl, ?_, takesBody⟩)
    rw [takesHeaders.2 lower.2]
    exact takesHeaders.1

def isPlainExchange (n : Nat) (s : Scenario) : Bool :=
  let types := s.resolver.types
  (types.all fun type => settlesWithin types n type.2)
    && ([s.request.query.toPattern, s.request.headers.toPattern, s.request.body,
      s.response.headers.toPattern, s.response.body].all fun p =>
        (reachable types p).all (Pattern.isTidy types))
    && [s.request.query, s.request.headers, s.response.headers].all fun object =>
        object.fields.all fun field => (reachable types field.2).all Pattern.isPlain

theorem clear_and_rereads {n : Nat} {s : Scenario} (row : s.resolver.row = none)
    (h : isPlainExchange n s) : ClearScenario s ∧ RereadsScenario s := by
  simp only [isPlainExchange, Bool.and_eq_true, List.all_cons, List.all_nil, and_true] at h
  obtain ⟨⟨settles, query, headers, body, headers', body'⟩, plain⟩ := h
  have clear {p : Pattern}
      (tidy : (reachable s.resolver.types p).all (Pattern.isTidy s.resolver.types)) :
      Clear s.resolver.types p := .of_tidy (.of_all tidy)
  have rereads {object : ObjectPattern} (plain : object.fields.all fun field =>
      (reachable s.resolver.types field.2).all Pattern.isPlain) :
      RereadsTexts s.resolver object :=
    rereadsTexts_of_plain row fun field mem q reach =>
      List.all_eq_true.mp (List.all_eq_true.mp plain field mem) q reach.mem_reachable
  exact ⟨⟨.of_settles n settles, clear query, clear headers, clear body, clear headers',
    clear body'⟩, rereads plain.1, rereads plain.2.1, rereads plain.2.2⟩

def exchangeText : String :=
  "[\"\",\x7b\"N\":\"(string)\"\x7d,\x7b\x7d,[[\"\",[],[\"PUT\",\"/\","
    ++ "\x7b\"p?\":\"(number?)\",\"on\":\"(boolean...)\"\x7d,\x7b\"Who\":\"(N)\"\x7d,"
    ++ "\x7b\"n\":\"(N)\",\"a\":\"(number...)\"\x7d],[200,\x7b\"T\":\"(number)\"\x7d,[\"(N?)\"]]]]]"

theorem exchange_taken : ∃ s ∈ (featureOf exchangeText).scenarios,
    (∃ request, .ok request ∈ s.generateRequest.results ∧
      s.request.query.checkTexts s.resolver request.query = some .success ∧
      s.request.headers.checkTexts s.resolver request.headers = some .success ∧
      checkBody s.resolver s.request.body request.body = some .success) ∧
    ∃ response, .ok response ∈ s.generateResponse.results ∧
      s.checkResponse response = some .success := by
  have fine : !(featureOf exchangeText).active.isEmpty &&
      (featureOf exchangeText).scenarios.any fun s => isPlainExchange 1 s
        && (s.generateRequest.results.any fun result => result.isOk)
        && s.generateResponse.results.any fun result => result.isOk := by decide +kernel
  simp only [Bool.and_eq_true, Bool.not_eq_true', List.isEmpty_eq_false_iff, List.any_eq_true]
    at fine
  obtain ⟨active, s, mem, ⟨plain, request, mem₁, ok₁⟩, response, mem₂, ok₂⟩ := fine
  have read := read_featureOf active
  have row : s.resolver.row = none :=
    ((written_feature read).scenarios s mem).resolver ▸ rowless_feature read
  obtain ⟨clear, rereads⟩ := clear_and_rereads row plain
  obtain ⟨takesRequest, takesResponse⟩ := generated_taken read mem clear rereads
  cases request with
  | error e => cases ok₁
  | ok request =>
    cases response with
    | error e => cases ok₂
    | ok response =>
      exact ⟨s, mem, ⟨request, mem₁, takesRequest.of_results mem₁⟩,
        response, mem₂, takesResponse.of_results mem₂⟩

end Scenarios

end ApiContract
