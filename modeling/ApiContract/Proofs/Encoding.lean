import ApiContract.Proofs.Data
import ApiContract.Stub

set_option autoImplicit false

namespace ApiContract

open Json Json.Reader

structure HttpRequest.Sound (request : HttpRequest) : Prop where
  query : Entries.Distinct request.query
  headers : Entries.Distinct request.headers
  body : request.body.isData

structure HttpResponse.Sound (response : HttpResponse) : Prop where
  headers : Entries.Distinct response.headers
  body : response.body.isData

def StubRecord.Sound : StubRecord → Prop
  | .http request response _ => request.Sound ∧ response.Sound
  | .kafka message => message.value.isData

section Parts

theorem asTexts_texts (texts : Entries String) :
    asTexts (.object (Entries.mapValues .string texts)) = .ok texts := by
  unfold asTexts Entries.mapValues
  induction texts with
  | nil => rfl
  | cons text rest ih =>
    simp only [List.map_cons, List.mapM_cons, ih]
    rfl

theorem asShort_shortNumber (n : UInt16) : asShort (.number (shortNumber n)) = .ok n := by
  have small := n.toNat_lt
  have range : (0 : Int) ≤ n.toNat ∧ (n.toNat : Int) < 65536 := by omega
  rw [asShort, shortNumber, Number.ofNat, ofShort, if_pos range, Int.toNat_natCast,
    UInt16.ofNat_toNat]

theorem delay_longNumber (n : UInt64) {members : List (String × Json)}
    (found : Entries.get? members "delay-in-seconds" = some (.number (longNumber n))) :
    StubRecord.delay members = .ok (some n) := by
  have range : (0 : Int) ≤ n.toNat := by omega
  simp only [StubRecord.delay, found, longNumber, Number.ofNat, if_pos range, Int.toNat_natCast,
    UInt64.ofNat_toNat]

def written? (texts : Entries String) : Option (Entries String) :=
  if texts.isEmpty then none else some texts

def writtenBody? (body : Value) : Option Json :=
  if body.isNull then none else some body.toJson

theorem getD_written? (texts : Entries String) : (written? texts).getD [] = texts := by
  cases texts <;> rfl

theorem ofJson_writtenBody? {body : Value} (data : body.isData) :
    Value.ofJson ((writtenBody? body).getD .null) = body := by
  by_cases null : body.isNull
  · rw [writtenBody?, if_pos null]
    cases body <;> first | rfl | cases null
  · rw [writtenBody?, if_neg null]
    exact Value.ofJson_toJson body data

theorem ofFields_request (request : HttpRequest) :
    RequestParts.ofFields ([("method", .string request.method), ("path", .string request.path)]
        ++ textMembers "query" request.query ++ textMembers "headers" request.headers
        ++ bodyMember request.body) =
      .ok {
        method := some request.method, path := some request.path,
        query := written? request.query, headers := written? request.headers,
        body := writtenBody? request.body } := by
  unfold textMembers bodyMember written? writtenBody? RequestParts.ofFields
  by_cases query : request.query.isEmpty <;> by_cases headers : request.headers.isEmpty <;>
    by_cases body : request.body.isNull <;>
    simp only [query, headers, body, if_true, if_false, Bool.false_eq_true, List.append_nil,
      List.cons_append, List.nil_append, List.foldlM, RequestParts.add, asText, asTexts_texts] <;>
    rfl

theorem ofFields_response (response : HttpResponse) :
    ResponseParts.ofFields ([("status", .number (shortNumber response.status))]
        ++ textMembers "headers" response.headers ++ bodyMember response.body) =
      .ok {
        status := some response.status, headers := written? response.headers,
        body := writtenBody? response.body } := by
  unfold textMembers bodyMember written? writtenBody? ResponseParts.ofFields
  by_cases headers : response.headers.isEmpty <;> by_cases body : response.body.isNull <;>
    simp only [headers, body, if_true, if_false, Bool.false_eq_true, List.append_nil,
      List.cons_append, List.nil_append, List.foldlM, ResponseParts.add, asShort_shortNumber,
      asTexts_texts] <;>
    rfl

end Parts

section Records

variable {crumb : String}

theorem part_request {request : HttpRequest} (sound : request.Sound) :
    StubRecord.part crumb HttpRequest.ofMembers request.toJson = .ok request := by
  have taken := ofFields_request request
  simp only [StubRecord.part, HttpRequest.toJson, HttpRequest.ofMembers, taken]
  simp [Except.bind, bind, pure, Except.pure, Except.mapError, Contractual.under,
    RequestParts.complete, getD_written?, ofJson_writtenBody? sound.body]

theorem part_response {response : HttpResponse} (sound : response.Sound) :
    StubRecord.part crumb HttpResponse.ofMembers response.toJson = .ok response := by
  have taken := ofFields_response response
  simp only [StubRecord.part, HttpResponse.toJson, HttpResponse.ofMembers, taken]
  simp [Except.bind, bind, pure, Except.pure, Except.mapError, Contractual.under,
    ResponseParts.complete, getD_written?, ofJson_writtenBody? sound.body]

theorem KafkaMessage.ofJson_toJson {message : KafkaMessage} (data : message.value.isData) :
    KafkaMessage.ofJson message.toJson = .ok message := by
  obtain ⟨topic, key, value⟩ := message
  cases key <;>
    simp [KafkaMessage.ofJson, KafkaMessage.toJson, Entries.get?, Value.ofJson, Value.toText,
      Value.ofJson_toJson value data]

theorem sameTexts_self {texts : Entries String} (distinct : Entries.Distinct texts) :
    sameTexts texts texts := by
  simp only [sameTexts, decide_true, Bool.true_and, List.all_eq_true, decide_eq_true_eq]
  exact fun entry mem => Entries.get?_of_mem distinct mem

namespace StubRecord

variable {members : List (String × Json)}

theorem ofJson_eq_kafka {message : KafkaMessage} :
    ofJson (.object members) = .ok (.kafka message) ↔
      ∃ json, Entries.get? members "kafka-message" = some json ∧
        KafkaMessage.ofJson json = .ok message := by
  rw [ofJson]
  split
  · next json found =>
    rw [Except.map_eq_ok]
    constructor
    · rintro ⟨read, ok, same⟩
      cases same
      exact ⟨json, found, ok⟩
    · rintro ⟨other, there, ok⟩
      cases found.symm.trans there
      exact ⟨message, ok, rfl⟩
  · next absent =>
    constructor
    · intro h
      split at h
      · cases h
      · cases h
      · simp only [Except.bind_eq_ok] at h
        obtain ⟨_, -, _, -, _, -, same⟩ := h
        cases same
    · rintro ⟨json, there, -⟩
      cases absent.symm.trans there

theorem ofJson_eq_http {request : HttpRequest} {response : HttpResponse} {seconds : Option UInt64} :
    ofJson (.object members) = .ok (.http request response seconds) ↔
      Entries.get? members "kafka-message" = none ∧ delay members = .ok seconds ∧
        (∃ json, request? members = some json ∧
          part "http-request" HttpRequest.ofMembers json = .ok request) ∧
        ∃ json, response? members = some json ∧
          part "http-response" HttpResponse.ofMembers json = .ok response := by
  rw [ofJson]
  split
  · next json found =>
    rw [Except.map_eq_ok]
    constructor
    · rintro ⟨_, -, same⟩
      cases same
    · rintro ⟨absent, -⟩
      cases absent.symm.trans found
  · next absent =>
    constructor
    · intro h
      split at h
      · cases h
      · cases h
      · next request? response? =>
        simp only [Except.bind_eq_ok] at h
        obtain ⟨_, delayed, _, first, _, second, same⟩ := h
        cases same
        exact ⟨absent, delayed, ⟨_, request?, first⟩, _, response?, second⟩
    · rintro ⟨-, delayed, ⟨_, request?, first⟩, _, response?, second⟩
      simp only [request?, response?, delayed, first, second]
      rfl

theorem ofJson_toJson {record : StubRecord} (sound : record.Sound) :
    ofJson record.toJson = .ok record := by
  cases record with
  | kafka message => exact ofJson_eq_kafka.mpr ⟨_, rfl, KafkaMessage.ofJson_toJson sound⟩
  | http request response seconds =>
    have first := @part_request "http-request" request sound.1
    have second := @part_response "http-response" response sound.2
    apply ofJson_eq_http.mpr
    cases seconds with
    | none => exact ⟨rfl, rfl, ⟨_, rfl, first⟩, _, rfl, second⟩
    | some seconds => exact ⟨rfl, delay_longNumber seconds rfl, ⟨_, rfl, first⟩, _, rfl, second⟩

theorem same_self {record : StubRecord} (sound : record.Sound) : record.same record := by
  cases record with
  | kafka message => simp [same, KafkaMessage.same, Value.same_self _ sound]
  | http request response seconds =>
    simp [same, HttpRequest.same, HttpResponse.same, sameTexts_self sound.1.query,
      sameTexts_self sound.1.headers, sameTexts_self sound.2.headers,
      Value.same_self _ sound.1.body, Value.same_self _ sound.2.body]

end StubRecord

end Records

section Reading

structure RequestParts.Sound (parts : RequestParts) : Prop where
  query : ∀ texts ∈ parts.query, Entries.Distinct texts
  headers : ∀ texts ∈ parts.headers, Entries.Distinct texts
  body : ∀ json ∈ parts.body, json.keyed

structure ResponseParts.Sound (parts : ResponseParts) : Prop where
  headers : ∀ texts ∈ parts.headers, Entries.Distinct texts
  body : ∀ json ∈ parts.body, json.keyed

theorem keys_of_texts {members : List (String × Json)} {texts : Entries String}
    (h : asTexts (.object members) = .ok texts) : Entries.keys texts = Entries.keys members := by
  unfold asTexts at h
  induction members generalizing texts with
  | nil =>
    cases h
    rfl
  | cons member rest ih =>
    simp only [List.mapM_cons, Except.bind_eq_ok] at h
    obtain ⟨_, ⟨text, -, same⟩, others, ok, whole⟩ := h
    cases same
    cases whole
    exact congrArg (member.1 :: ·) (ih ok)

theorem distinct_of_asTexts {json : Json} {texts : Entries String} (keyed : json.keyed)
    (h : asTexts json = .ok texts) : Entries.Distinct texts := by
  cases json with
  | object members =>
    rw [Entries.Distinct, keys_of_texts h]
    exact (keyed_object.mp keyed).1
  | _ => cases h

theorem RequestParts.Sound.add {parts more : RequestParts} {key : String} {json : Json}
    (sound : parts.Sound) (keyed : json.keyed) (h : parts.add key json = .ok more) : more.Sound := by
  unfold RequestParts.add at h
  split at h
  · obtain ⟨_, -, same⟩ := Except.bind_eq_ok.mp h
    cases same
    exact { sound with }
  · obtain ⟨_, -, same⟩ := Except.bind_eq_ok.mp h
    cases same
    exact { sound with }
  · obtain ⟨texts, ok, same⟩ := Except.bind_eq_ok.mp h
    cases same
    exact { sound with query := by simpa using distinct_of_asTexts keyed ok }
  · obtain ⟨texts, ok, same⟩ := Except.bind_eq_ok.mp h
    cases same
    exact { sound with headers := by simpa using distinct_of_asTexts keyed ok }
  · cases h
    exact { sound with body := by simpa using keyed }
  · cases h
    exact sound

theorem ResponseParts.Sound.add {parts more : ResponseParts} {key : String} {json : Json}
    (sound : parts.Sound) (keyed : json.keyed) (h : parts.add key json = .ok more) : more.Sound := by
  unfold ResponseParts.add at h
  split at h
  · obtain ⟨_, -, same⟩ := Except.bind_eq_ok.mp h
    cases same
    exact { sound with }
  · obtain ⟨texts, ok, same⟩ := Except.bind_eq_ok.mp h
    cases same
    exact { sound with headers := by simpa using distinct_of_asTexts keyed ok }
  · cases h
    exact { sound with body := by simpa using keyed }
  · cases h
    exact sound

theorem foldlM_keeps {σ α ε : Type} {P : σ → Prop} {f : σ → α → Except ε σ} {items : List α}
    {start last : σ} (first : P start)
    (step : ∀ a ∈ items, ∀ s s', P s → f s a = .ok s' → P s')
    (h : items.foldlM f start = .ok last) : P last := by
  induction items generalizing start with
  | nil =>
    cases h
    exact first
  | cons a rest ih =>
    rw [List.foldlM_cons] at h
    obtain ⟨next, ok, h⟩ := Except.bind_eq_ok.mp h
    apply ih (step a List.mem_cons_self start next first ok) ?_ h
    exact fun b mem => step b (List.mem_cons_of_mem a mem)

theorem distinct_getD {texts? : Option (Entries String)}
    (h : ∀ texts ∈ texts?, Entries.Distinct texts) : Entries.Distinct (texts?.getD []) := by
  cases texts? with
  | none => exact List.nodup_nil
  | some texts => exact h texts rfl

theorem isData_getD {json? : Option Json} (h : ∀ json ∈ json?, json.keyed) :
    (Value.ofJson (json?.getD .null)).isData := by
  rw [Value.isData_ofJson]
  cases json? with
  | none => rfl
  | some json => exact h json rfl

theorem RequestParts.Sound.complete {parts : RequestParts} (sound : parts.Sound) :
    parts.complete.Sound where
  query := distinct_getD sound.query
  headers := distinct_getD sound.headers
  body := isData_getD sound.body

theorem ResponseParts.Sound.complete {parts : ResponseParts} (sound : parts.Sound) :
    parts.complete.Sound where
  headers := distinct_getD sound.headers
  body := isData_getD sound.body

theorem part_eq_ok {α : Type} {crumb : String} {decode : List (String × Json) → Except Flaw α}
    {json : Json} {a : α} :
    StubRecord.part crumb decode json = .ok a ↔
      ∃ members, json = .object members ∧ decode members = .ok a := by
  cases json with
  | object members =>
    rw [StubRecord.part, Contractual.under_eq_ok]
    cases decoded : decode members <;> simp [Except.mapError, decoded]
  | _ => simp [StubRecord.part, Contractual.under_eq_ok]

theorem sound_request {members : List (String × Json)} {request : HttpRequest}
    (keyed : (Json.object members).keyed) (h : HttpRequest.ofMembers members = .ok request) :
    request.Sound := by
  unfold HttpRequest.ofMembers at h
  obtain ⟨parts, read, h⟩ := Except.bind_eq_ok.mp h
  have sound : parts.Sound :=
    foldlM_keeps (P := RequestParts.Sound) ⟨by simp, by simp, by simp⟩
      (fun field mem _ _ sound ok => sound.add ((keyed_object.mp keyed).2 field mem) ok) read
  by_cases method : parts.method.isNone
  · simp [method, throw, throwThe, MonadExceptOf.throw, bind, Except.bind] at h
  · by_cases path : parts.path.isNone
    · simp [method, path, throw, throwThe, MonadExceptOf.throw, bind, Except.bind] at h
    · simp only [method, path, Bool.false_eq_true, if_false] at h
      cases h
      exact sound.complete

theorem sound_response {members : List (String × Json)} {response : HttpResponse}
    (keyed : (Json.object members).keyed) (h : HttpResponse.ofMembers members = .ok response) :
    response.Sound := by
  unfold HttpResponse.ofMembers at h
  obtain ⟨parts, read, h⟩ := Except.bind_eq_ok.mp h
  have sound : parts.Sound :=
    foldlM_keeps (P := ResponseParts.Sound) ⟨by simp, by simp⟩
      (fun field mem _ _ sound ok => sound.add ((keyed_object.mp keyed).2 field mem) ok) read
  by_cases status : parts.status.isNone
  · simp [status, throw, throwThe, MonadExceptOf.throw, bind, Except.bind] at h
  · simp only [status, Bool.false_eq_true, if_false] at h
    cases h
    exact sound.complete

theorem keyed_of_either {members : List (String × Json)} {older newer : String} {json : Json}
    (keyed : (Json.object members).keyed)
    (h : (Entries.get? members older).or (Entries.get? members newer) = some json) :
    json.keyed := by
  rcases Option.or_eq_some_iff.mp h with found | ⟨-, found⟩
  · exact keyed_of_get? keyed found
  · exact keyed_of_get? keyed found

theorem data_message {json : Json} {message : KafkaMessage} (keyed : json.keyed)
    (h : KafkaMessage.ofJson json = .ok message) : message.value.isData := by
  cases json with
  | object members =>
    rw [KafkaMessage.ofJson] at h
    split at h
    · cases h
    · cases h
    · next topic value =>
      cases h
      exact (Value.isData_ofJson _).trans (keyed_of_get? keyed value)
  | _ => cases h

theorem StubRecord.sound_ofJson {json : Json} {record : StubRecord} (keyed : json.keyed)
    (h : StubRecord.ofJson json = .ok record) : record.Sound := by
  cases json with
  | object members =>
    cases record with
    | kafka message =>
      obtain ⟨json, found, read⟩ := ofJson_eq_kafka.mp h
      exact data_message (keyed_of_get? keyed found) read
    | http request response seconds =>
      obtain ⟨-, -, ⟨first, hfirst, request⟩, second, hsecond, response⟩ := ofJson_eq_http.mp h
      obtain ⟨_, rfl, taken⟩ := part_eq_ok.mp request
      obtain ⟨_, rfl, given⟩ := part_eq_ok.mp response
      exact ⟨sound_request (keyed_of_either keyed hfirst) taken,
        sound_response (keyed_of_either keyed hsecond) given⟩
  | _ => cases h

end Reading

theorem StubRecord.read_written :
    (∀ record : StubRecord, record.Sound →
      ∃ again, ofJson record.toJson = .ok again ∧ again.same record) ∧
    ∀ (json : Json) (record : StubRecord), json.keyed → ofJson json = .ok record →
      ∃ again, ofJson record.toJson = .ok again ∧ again.same record := by
  have written (record : StubRecord) (sound : record.Sound) :
      ∃ again, ofJson record.toJson = .ok again ∧ again.same record :=
    ⟨record, ofJson_toJson sound, same_self sound⟩
  exact ⟨written, fun json record keyed read => written record (sound_ofJson keyed read)⟩

def customerStub : Json :=
  .object
    [("mock-http-request", .object [("method", .string "GET"), ("path", .string "/customers/10")]),
      ("mock-http-response", .object
        [("status", .number (.ofNat 200 (Nat.le_of_ble_eq_true rfl))),
          ("body", .object [("name", .string "Jane")])]),
      ("delay-in-seconds", .number (.ofNat 3 (Nat.le_of_ble_eq_true rfl)))]

def orderStub : StubRecord :=
  .kafka { topic := "orders", key := some "1",
           value := .object [("id", .number (.ofNat 1 (Nat.le_of_ble_eq_true rfl)))] }

theorem StubRecord.stubs_read_written :
    (∃ again, ofJson orderStub.toJson = .ok again ∧ again.same orderStub) ∧
    ∃ record, ofJson customerStub = .ok record ∧
      ∃ again, ofJson record.toJson = .ok again ∧ again.same record :=
  ⟨read_written.1 orderStub rfl,
    _, rfl, read_written.2 customerStub _ (by decide) rfl⟩

end ApiContract
