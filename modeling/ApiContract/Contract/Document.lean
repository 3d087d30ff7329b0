import ApiContract.Contract.Scenario
import ApiContract.Traffic.Reading

set_option autoImplicit false

namespace ApiContract

open Json Json.Reader

structure ScenarioParts where
  name : Option String := none
  tags : Option (List String) := none
  request : Option RequestParts := none
  response : Option ResponseParts := none
  examples : Option (List (Entries Json)) := none

structure FeatureParts where
  name : Option String := none
  types : Option (Entries Json) := none
  tables : Option (Entries (Entries String)) := none
  scenarios : Option (List ScenarioParts) := none

def ScenarioParts.fields : List (RecordField ScenarioParts) :=
  [{ name := "name", required := true, isSet := fun s => s.name.isSome
     fill := fun _ s => do return { s with name := some (← Reader.string) } },
   { name := "tags", required := false, isSet := fun s => s.tags.isSome
     fill := fun depth s => do
       return { s with tags := some (← Reader.list (fun _ => Reader.string) depth) } },
   { name := "request", required := true, isSet := fun s => s.request.isSome
     fill := fun depth s => do
       return { s with request := some (← requestReader "RequestDocument" true depth) } },
   { name := "response", required := true, isSet := fun s => s.response.isSome
     fill := fun depth s => do
       return { s with response := some (← responseReader "ResponseDocument" true depth) } },
   { name := "examples", required := false, isSet := fun s => s.examples.isSome
     fill := fun depth s => do
       return { s with examples := some (← Reader.list (Reader.map Reader.value) depth) } }]

def scenarioReader (depth : Nat) : Reader ScenarioParts :=
  Layout.read { name := "ScenarioDocument", strict := true, fields := ScenarioParts.fields } {}
    depth

def FeatureParts.fields : List (RecordField FeatureParts) :=
  [{ name := "name", required := false, isSet := fun f => f.name.isSome
     fill := fun _ f => do return { f with name := some (← Reader.string) } },
   { name := "types", required := false, isSet := fun f => f.types.isSome
     fill := fun depth f => do
       return { f with types := some (← Reader.map Reader.value depth) } },
   { name := "tables", required := false, isSet := fun f => f.tables.isSome
     fill := fun depth f => do
       return { f with tables := some (← Reader.map textsReader depth) } },
   { name := "scenarios", required := false, isSet := fun f => f.scenarios.isSome
     fill := fun depth f => do
       return { f with scenarios := some (← Reader.list scenarioReader depth) } }]

def featureReader (depth : Nat) : Reader FeatureParts :=
  Layout.read { name := "FeatureDocument", strict := true, fields := FeatureParts.fields } {}
    depth

def textPatterns : Entries String → Contractual (Entries Pattern)
  | [] => return []
  | (key, text) :: rest => do
      let pattern ← (Pattern.read text).under key
      return (key, pattern) :: (← textPatterns rest)

def cellText : Json → String
  | .string text => text
  | other => other.compact

namespace RequestParts

def toPattern (parts : RequestParts) : Contractual RequestPattern := do
  let query ← textPatterns (parts.query.getD [])
  let headers ← textPatterns (parts.headers.getD [])
  let body ← (Pattern.ofJson (parts.body.getD .null)).under "BODY"
  let path ← PathPattern.read (parts.path.getD "")
  return {
    method := Text.asciiUpper (parts.method.getD "")
    path
    query := .ofFields query .json
    headers := headersPattern headers
    body }

end RequestParts

def ResponseParts.toPattern (parts : ResponseParts) : Contractual ResponsePattern := do
  let headers ← textPatterns (parts.headers.getD [])
  let body ← (Pattern.ofJson (parts.body.getD .null)).under "BODY"
  return { status := parts.status.getD 0, headers := headersPattern headers, body }

def ScenarioParts.toScenario (resolver : Resolver) (parts : ScenarioParts) :
    Contractual Scenario := do
  let request ← (parts.request.getD {}).toPattern
  let response ← (parts.response.getD {}).toPattern
  return {
    name := parts.name.getD ""
    request
    response
    resolver
    tags := parts.tags.getD []
    examples := (parts.examples.getD []).map (Entries.mapValues cellText) }

def typePatterns : Entries Json → Contractual (List (String × Pattern))
  | [] => return []
  | (name, json) :: rest => do
      let pattern ← (Pattern.ofJson json).under name
      return (name, pattern) :: (← typePatterns rest)

def tablePatterns : Entries (Entries String) → Contractual (List (String × Pattern))
  | [] => return []
  | (name, rows) :: rest => do
      let pattern ← (Pattern.ofRows rows).under name
      return (name, pattern) :: (← tablePatterns rest)

namespace FeatureParts

def toFeature (parts : FeatureParts) : Contractual Feature := do
  let types ← typePatterns (parts.types.getD [])
  let tables ← tablePatterns (parts.tables.getD [])
  let resolver := Resolver.ofTypes (types ++ tables)
  let scenarios ← (parts.scenarios.getD []).mapM fun scenario =>
    (scenario.toScenario resolver).under (scenario.name.getD "")
  return { name := parts.name.getD "", resolver, scenarios }

end FeatureParts

def Feature.read (source : String) : Contractual Feature := do
  (← readLeading featureReader source).toFeature

end ApiContract
