import ApiContract.Contract.Path
import ApiContract.Traffic.Basic

set_option autoImplicit false

namespace ApiContract

structure RequestPattern where
  method : String
  path : PathPattern
  query : ObjectPattern
  headers : ObjectPattern
  body : Pattern
  deriving Repr

structure ResponsePattern where
  status : UInt16
  headers : ObjectPattern
  body : Pattern
  deriving Repr

structure Scenario where
  name : String
  request : RequestPattern
  response : ResponsePattern
  resolver : Resolver
  tags : List String
  examples : List Row
  deriving Repr

def headersPattern (fields : Entries Pattern) : ObjectPattern :=
  -- Header names are written in lower case; other headers are always admitted.
  let lower := Entries.ofList (fields.map fun field => (Text.asciiLower field.1, field.2))
  .ofFields (Entries.insert lower openKey .string) .json

namespace ObjectPattern

def same (a b : ObjectPattern) : Bool :=
  a.toPattern.same b.toPattern

def check (resolver : Resolver) (object : ObjectPattern) (value : Value) : Option Verdict :=
  object.toPattern.check resolver value

def encompasses (these those : Resolver) (bigger smaller : ObjectPattern) : Option Verdict :=
  Pattern.encompasses these those bigger.toPattern smaller.toPattern

def readTexts (resolver : Resolver) (object : ObjectPattern) :
    List (String × String) → Option (Except Failure (Entries Value))
  | [] => return .ok []
  | (key, text) :: rest => do
      let value ← match field? object.fields key with
        | some (_, declared) => declared.parse resolver text
        | none => some (.ok (.string text))
      match value with
      | .error error => return .error ((Failure.ofMessage error.message).under key)
      | .ok value => return (← readTexts resolver object rest).map fun more => (key, value) :: more

def checkTexts (resolver : Resolver) (object : ObjectPattern) (actual : Entries String) :
    Option Verdict := do
  match ← object.readTexts resolver actual with
  | .error failure => return .failure failure
  | .ok fields => object.check resolver (.object fields)

def generateTexts (resolver : Resolver) (object : ObjectPattern) : Gen (Entries String) := do
  match ← object.toPattern.generate resolver with
  | .object fields => return Entries.mapValues Value.toText fields
  | _ => return []

end ObjectPattern

def checkBody (resolver : Resolver) (pattern : Pattern) (body : Value) : Option Verdict := do
  -- A text body that does not fit is read through the pattern for a second chance.
  match ← pattern.check resolver body with
  | .success => return .success
  | .failure failure =>
      match body with
      | .string text =>
          match ← pattern.parse resolver text with
          | .error _ => return .failure failure
          | .ok value =>
              match ← pattern.check resolver value with
              | .success => return .success
              | .failure _ => return .failure failure
      | _ => return .failure failure

def lowerKeys (headers : Entries String) : Entries String :=
  Entries.ofList (headers.map fun header => (Text.asciiLower header.1, header.2))

def checkUnder (crumb : String) (check : Option Verdict) : Option Verdict :=
  check.map (Verdict.under crumb)

namespace RequestPattern

def same (a b : RequestPattern) : Bool :=
  a.method = b.method && a.path.same b.path && a.query.same b.query && a.headers.same b.headers
    && a.body.same b.body

def sameShape (a b : RequestPattern) : Bool :=
  Text.sameIgnoringAsciiCase a.method b.method && a.path.sameShape b.path

def encompasses (these those : Resolver) (bigger smaller : RequestPattern) : Option Verdict :=
  checkUnder "REQUEST" do
    Verdict.thenCheck (checkUnder "PATH" (bigger.path.encompasses these those smaller.path))
      fun _ =>
    Verdict.thenCheck (checkUnder "QUERY" (bigger.query.encompasses these those smaller.query))
      fun _ =>
    Verdict.thenCheck
      (checkUnder "HEADERS" (bigger.headers.encompasses these those smaller.headers)) fun _ =>
    checkUnder "BODY" (bigger.body.encompasses these those smaller.body)

end RequestPattern

namespace ResponsePattern

def same (a b : ResponsePattern) : Bool :=
  a.status = b.status && a.headers.same b.headers && a.body.same b.body

def encompasses (these those : Resolver) (bigger smaller : ResponsePattern) : Option Verdict :=
  checkUnder "RESPONSE" do
    if bigger.status ≠ smaller.status then
      return (Verdict.fail ("Expected status " ++ toString bigger.status.toNat ++ ", got "
        ++ toString smaller.status.toNat)).under "STATUS"
    else
      Verdict.thenCheck
        (checkUnder "HEADERS" (bigger.headers.encompasses these those smaller.headers)) fun _ =>
      checkUnder "BODY" (bigger.body.encompasses these those smaller.body)

end ResponsePattern

namespace Scenario

def isWip (scenario : Scenario) : Bool :=
  scenario.tags.any fun tag =>
    let bare := String.ofList ((Text.trimChars tag.toList).dropWhile fun c => c = '@')
    Text.sameIgnoringAsciiCase bare "WIP"

def checkRequest (scenario : Scenario) (request : HttpRequest) : Option Verdict :=
  let expected := scenario.request
  let resolver := scenario.resolver
  checkUnder "REQUEST" do
    if !Text.sameIgnoringAsciiCase expected.method request.method then
      return (Verdict.fail ("Expected method " ++ expected.method ++ ", actual was "
        ++ request.method)).under "METHOD"
    else
      Verdict.thenCheck (checkUnder "PATH" (expected.path.check resolver request.path)) fun _ =>
      Verdict.thenCheck (checkUnder "QUERY" (expected.query.checkTexts resolver request.query))
        fun _ =>
      Verdict.thenCheck
        (checkUnder "HEADERS" (expected.headers.checkTexts resolver (lowerKeys request.headers)))
        fun _ =>
      checkUnder "BODY" (checkBody resolver expected.body request.body)

def checkResponse (scenario : Scenario) (response : HttpResponse) : Option Verdict :=
  let expected := scenario.response
  let resolver := scenario.resolver
  checkUnder "RESPONSE" do
    if expected.status ≠ response.status then
      return (Verdict.fail ("Expected status " ++ toString expected.status.toNat ++ ", actual was "
        ++ toString response.status.toNat)).under "STATUS"
    else
      Verdict.thenCheck
        (checkUnder "HEADERS" (expected.headers.checkTexts resolver (lowerKeys response.headers)))
        fun _ =>
      checkUnder "BODY" (checkBody resolver expected.body response.body)

def generateRequest (scenario : Scenario) : Gen HttpRequest := do
  let resolver := scenario.resolver
  let request := scenario.request
  return {
    method := request.method
    path := ← (request.path.generate resolver).under "PATH"
    query := ← (request.query.generateTexts resolver).under "QUERY"
    headers := ← (request.headers.generateTexts resolver).under "HEADERS"
    body := ← (request.body.generate resolver).under "BODY" }

def generateResponse (scenario : Scenario) : Gen HttpResponse := do
  let resolver := scenario.resolver
  let response := scenario.response
  return {
    status := response.status
    headers := ← (response.headers.generateTexts resolver).under "HEADERS"
    body := ← (response.body.generate resolver).under "BODY" }

def requestVariants (scenario : Scenario) (resolver : Resolver) (row : Row) :
    Attempt (List RequestPattern) := do
  let request := scenario.request
  let paths ← Attempt.under "PATH" (request.path.expand resolver row)
  let queries ← Attempt.under "QUERY" (request.query.toPattern.expand resolver row)
  let bodies ← Attempt.under "BODY" (request.body.expand resolver row)
  return paths.flatMap fun path =>
    queries.flatMap fun query =>
      match query with
      | .object fields traits =>
          bodies.map fun body =>
            { request with path, query := ⟨fields, traits.unexpected, traits.kind⟩, body }
      | _ => []

def rows (scenario : Scenario) : List Row :=
  -- Without examples one empty row is tried.
  if scenario.examples.isEmpty then [[]] else scenario.examples

def testScenariosOf (scenario : Scenario) (row : Row) : Attempt (List Scenario) := do
  let resolver := scenario.resolver.withRow row
  let variants ← Attempt.under "REQUEST" (scenario.requestVariants resolver row)
  return variants.map fun request => { scenario with request, resolver, examples := [] }

def testScenarios (scenario : Scenario) : Attempt (List Scenario) := do
  return (← scenario.rows.mapM scenario.testScenariosOf).flatten

end Scenario

structure Feature where
  name : String
  resolver : Resolver
  scenarios : List Scenario
  deriving Repr

namespace Feature

def active (feature : Feature) : List Scenario :=
  feature.scenarios.filter fun scenario => !scenario.isWip

def scenario? (feature : Feature) (name : String) : Option Scenario :=
  feature.scenarios.find? fun scenario => scenario.name = name

end Feature

end ApiContract
