import ApiContract.ContractError
import ApiContract.Json.Record
import ApiContract.Traffic.Basic

set_option autoImplicit false

namespace ApiContract

open Json Json.Reader

structure RequestParts where
  method : Option String := none
  path : Option String := none
  query : Option (Entries String) := none
  headers : Option (Entries String) := none
  body : Option Json := none

structure ResponseParts where
  status : Option UInt16 := none
  headers : Option (Entries String) := none
  body : Option Json := none

def textsReader (depth : Nat) : Reader (Entries String) :=
  Reader.map (fun _ => Reader.string) depth

def RequestParts.fields : List (RecordField RequestParts) :=
  [{ name := "method", required := true, isSet := fun r => r.method.isSome
     fill := fun _ r => do return { r with method := some (← Reader.string) } },
   { name := "path", required := true, isSet := fun r => r.path.isSome
     fill := fun _ r => do return { r with path := some (← Reader.string) } },
   { name := "query", required := false, isSet := fun r => r.query.isSome
     fill := fun depth r => do return { r with query := some (← textsReader depth) } },
   { name := "headers", required := false, isSet := fun r => r.headers.isSome
     fill := fun depth r => do return { r with headers := some (← textsReader depth) } },
   { name := "body", required := false, isSet := fun r => r.body.isSome
     fill := fun depth r => do return { r with body := some (← Reader.value depth) } }]

def ResponseParts.fields : List (RecordField ResponseParts) :=
  [{ name := "status", required := true, isSet := fun r => r.status.isSome
     fill := fun _ r => do return { r with status := some (← Reader.short) } },
   { name := "headers", required := false, isSet := fun r => r.headers.isSome
     fill := fun depth r => do return { r with headers := some (← textsReader depth) } },
   { name := "body", required := false, isSet := fun r => r.body.isSome
     fill := fun depth r => do return { r with body := some (← Reader.value depth) } }]

def requestReader (name : String) (strict : Bool) (depth : Nat) : Reader RequestParts :=
  Layout.read { name, strict, fields := RequestParts.fields } {} depth

def responseReader (name : String) (strict : Bool) (depth : Nat) : Reader ResponseParts :=
  Layout.read { name, strict, fields := ResponseParts.fields } {} depth

def RequestParts.complete (parts : RequestParts) : HttpRequest where
  method := parts.method.getD ""
  path := parts.path.getD ""
  query := parts.query.getD []
  headers := parts.headers.getD []
  body := Value.ofJson (parts.body.getD .null)

def ResponseParts.complete (parts : ResponseParts) : HttpResponse where
  status := parts.status.getD 0
  headers := parts.headers.getD []
  body := Value.ofJson (parts.body.getD .null)

def readLeading {α : Type} (reader : Nat → Reader α) (source : String) : Contractual α :=
  -- The text before the end of the value; what follows it is not looked at.
  match reader nestingLimit source.toList with
  | .ok (a, _) => .ok a
  | .error fault =>
      .error (.invalidDocument
        ("at JSON path " ++ placeText fault.place ++ " → " ++ fault.flaw.message))

def HttpRequest.read (source : String) : Contractual HttpRequest :=
  (readLeading (requestReader "HttpRequest" false) source).map RequestParts.complete

def HttpResponse.read (source : String) : Contractual HttpResponse :=
  (readLeading (responseReader "HttpResponse" false) source).map ResponseParts.complete

def Json.found : Json → Found
  | .null => .null
  | .bool b => .boolean b
  | .number n => .number n
  | .string s => .text s
  | .array _ => .sequence
  | .object _ => .map

def Json.asText : Json → Except Flaw String
  | .string s => .ok s
  | other => .error (.wrongType other.found "a string")

def Json.asTexts : Json → Except Flaw (Entries String)
  | .object members => members.mapM fun member => do return (member.1, ← asText member.2)
  | other => .error (.wrongType other.found "a map")

def Json.asShort : Json → Except Flaw UInt16
  | .number n => ofShort n
  | other => .error (.wrongType other.found "u16")

def RequestParts.add (parts : RequestParts) (key : String) (json : Json) :
    Except Flaw RequestParts :=
  match key with
  | "method" => do return { parts with method := some (← json.asText) }
  | "path" => do return { parts with path := some (← json.asText) }
  | "query" => do return { parts with query := some (← json.asTexts) }
  | "headers" => do return { parts with headers := some (← json.asTexts) }
  | "body" => .ok { parts with body := some json }
  | _ => .ok parts

def ResponseParts.add (parts : ResponseParts) (key : String) (json : Json) :
    Except Flaw ResponseParts :=
  match key with
  | "status" => do return { parts with status := some (← json.asShort) }
  | "headers" => do return { parts with headers := some (← json.asTexts) }
  | "body" => .ok { parts with body := some json }
  | _ => .ok parts

def RequestParts.ofFields (fields : List (String × Json)) : Except Flaw RequestParts :=
  fields.foldlM (fun parts field => parts.add field.1 field.2) {}

def ResponseParts.ofFields (fields : List (String × Json)) : Except Flaw ResponseParts :=
  fields.foldlM (fun parts field => parts.add field.1 field.2) {}

def HttpRequest.ofMembers (members : List (String × Json)) : Except Flaw HttpRequest := do
  -- Members in order, then the fields that are missing.
  let parts ← RequestParts.ofFields members
  if parts.method.isNone then throw (.missingField "method")
  if parts.path.isNone then throw (.missingField "path")
  return parts.complete

def HttpResponse.ofMembers (members : List (String × Json)) : Except Flaw HttpResponse := do
  let parts ← ResponseParts.ofFields members
  if parts.status.isNone then throw (.missingField "status")
  return parts.complete

def checkLength (required all given : Nat) (name : String) : Except Flaw Unit :=
  if given < required then
    .error (.wrongLength given ("struct " ++ name ++ " with " ++ toString all ++ " elements"))
  else if all < given then .error (.wrongLength given "fewer elements in array")
  else .ok ()

def HttpRequest.ofJson : Json → Except Flaw HttpRequest
  | .object members => HttpRequest.ofMembers members
  | .array items => do
      let names := RequestParts.fields.map RecordField.name
      let parts ← RequestParts.ofFields (names.zip items)
      checkLength 2 names.length items.length "HttpRequest"
      return parts.complete
  | other => .error (.wrongType other.found "struct HttpRequest")

def HttpResponse.ofJson : Json → Except Flaw HttpResponse
  | .object members => HttpResponse.ofMembers members
  | .array items => do
      let names := ResponseParts.fields.map RecordField.name
      let parts ← ResponseParts.ofFields (names.zip items)
      checkLength 1 names.length items.length "HttpResponse"
      return parts.complete
  | other => .error (.wrongType other.found "struct HttpResponse")

end ApiContract
