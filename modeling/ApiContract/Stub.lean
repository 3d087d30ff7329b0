import ApiContract.Contract.Scenario
import ApiContract.Traffic.Reading

set_option autoImplicit false

namespace ApiContract

structure KafkaMessage where
  topic : String
  key : Option String
  value : Value
  deriving Repr

inductive StubRecord where
  | http (request : HttpRequest) (response : HttpResponse) (delayInSeconds : Option UInt64)
  | kafka (message : KafkaMessage)
  deriving Repr

def longNumber (n : UInt64) : Number :=
  .ofNat n.toNat (by have := n.toNat_lt; omega)

namespace KafkaMessage

def ofJson : Json → Contractual KafkaMessage
  | .object members =>
      match Entries.get? members "topic", Entries.get? members "value" with
      | none, _ =>
          .error (.invalidStub "kafka message stub info must contain a topic name")
      | some _, none => .error (.invalidStub "kafka message stub info must contain a payload")
      | some topic, some value =>
          .ok {
            topic := (Value.ofJson topic).toText
            key := (Entries.get? members "key").map fun key => (Value.ofJson key).toText
            value := Value.ofJson value }
  | _ => .error (.invalidStub "kafka-message should be a json object")

def toJson (message : KafkaMessage) : Json :=
  let key := match message.key with
    | some key => [("key", Json.string key)]
    | none => []
  .object ([("topic", .string message.topic)] ++ key ++ [("value", message.value.toJson)])

def same (a b : KafkaMessage) : Bool :=
  a.topic = b.topic && a.key = b.key && a.value.same b.value

end KafkaMessage

namespace StubRecord

def request? (members : List (String × Json)) : Option Json :=
  (Entries.get? members "mock-http-request").or (Entries.get? members "http-request")

def response? (members : List (String × Json)) : Option Json :=
  (Entries.get? members "mock-http-response").or (Entries.get? members "http-response")

def delay (members : List (String × Json)) : Contractual (Option UInt64) :=
  match Entries.get? members "delay-in-seconds" with
  | none | some .null => .ok none
  | some (.number (.whole n)) =>
      if 0 ≤ n.val then .ok (some (UInt64.ofNat n.val.toNat))
      else .error (.invalidStub "delay-in-seconds should be a number")
  | some _ => .error (.invalidStub "delay-in-seconds should be a number")

def part {α : Type} (crumb : String) (decode : List (String × Json) → Except Json.Flaw α) :
    Json → Contractual α
  | .object members =>
      Contractual.under crumb ((decode members).mapError fun flaw => .invalidStub flaw.message)
  | _ => Contractual.under crumb (.error (.invalidStub "should be a json object"))

def ofJson : Json → Contractual StubRecord
  | .object members =>
      match Entries.get? members "kafka-message" with
      | some message => (KafkaMessage.ofJson message).map .kafka
      | none =>
          match request? members, response? members with
          | none, _ =>
              .error (.invalidStub
                "this record describes neither a kafka message nor a request to be mocked")
          | some _, none =>
              .error (.invalidStub "this record does not describe the response to be mocked")
          | some request, some response => do
              let delay ← delay members
              let request ← part "http-request" HttpRequest.ofMembers request
              let response ← part "http-response" HttpResponse.ofMembers response
              return .http request response delay
  | _ => .error (.invalidStub "a stub record must be a json object")

def toJson : StubRecord → Json
  | .http request response delay =>
      let delay := match delay with
        | some seconds => [("delay-in-seconds", Json.number (longNumber seconds))]
        | none => []
      .object ([("http-request", request.toJson), ("http-response", response.toJson)] ++ delay)
  | .kafka message => .object [("kafka-message", message.toJson)]

def same : StubRecord → StubRecord → Bool
  | .http q r d, .http q' r' d' => q.same q' && r.same r' && d = d'
  | .kafka m, .kafka m' => m.same m'
  | _, _ => false

end StubRecord

namespace Feature

def checkExchange (request : HttpRequest) (response : HttpResponse) (scenario : Scenario) :
    Option Verdict :=
  (Verdict.thenCheck (scenario.checkRequest request) fun _ =>
    scenario.checkResponse response).map (Verdict.inScenario scenario.name)

def firstTaking (request : HttpRequest) (response : HttpResponse) :
    List Scenario → Option (Except (List Failure) Scenario)
  | [] => return .error []
  | scenario :: rest => do
      match ← checkExchange request response scenario with
      | .success => return .ok scenario
      | .failure failure =>
          match ← firstTaking request response rest with
          | .ok taking => return .ok taking
          | .error failures => return .error (failure :: failures)

def matchStub (feature : Feature) (request : HttpRequest) (response : HttpResponse) :
    Option (Except (List Failure) Scenario) :=
  firstTaking request response feature.active

def generateStub (scenario : Scenario) : Gen (String × StubRecord) := do
  let request ← scenario.generateRequest.under scenario.name
  let response ← scenario.generateResponse.under scenario.name
  return (scenario.name, .http request response none)

def generateAll : List Scenario → Gen (List (String × StubRecord))
  | [] => return []
  | scenario :: rest => do
      let stub ← generateStub scenario
      return stub :: (← generateAll rest)

def generateStubs (feature : Feature) : Gen (Entries StubRecord) := do
  return Entries.ofList (← generateAll feature.active)

end Feature

end ApiContract
