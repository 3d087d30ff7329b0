import ApiContract.Pattern.Matching
import ApiContract.Value.Reading

set_option autoImplicit false

namespace ApiContract

def readExact (text : String) : Value → Contractual Value
  | .string _ => .ok (.string text)
  | _ => (Value.read text).mapError .malformed

def readObject (text : String) : Contractual Value :=
  match Value.read text with
  | .error message => .error (.malformed message)
  | .ok (.object members) => .ok (.object members)
  | .ok _ => .error (.unreadable "json object" text)

def readArray (text : String) : Contractual Value :=
  match Value.read text with
  | .error message => .error (.malformed message)
  | .ok (.array items) => .ok (.array items)
  | .ok _ => .error (.unreadable "json array" text)

def readNumber (text : String) : Contractual Value :=
  match Json.readNumber? (Text.trim text) with
  | some n => .ok (.number n)
  | none => .error (.unreadable "number" text)

def readBoolean (text : String) : Contractual Value :=
  if Text.trim text = "true" then .ok (.boolean true)
  else if Text.trim text = "false" then .ok (.boolean false)
  else .error (.unreadable "boolean" text)

def readNull (text : String) : Contractual Value :=
  if Text.trim text = "" ∨ Text.trim text = "null" then .ok .null
  else .error (.unreadable "null" text)

def readUrl (scheme : UrlScheme) (text : String) : Contractual Value :=
  if scheme.accepts (Text.trim text) then .ok (.string (Text.trim text))
  else .error (.unreadable ("url with prefix " ++ scheme.start) text)

def firstReading (reading : Pattern → Option (Contractual Value)) :
    List Pattern → Option (Option Value)
  | [] => some none
  | pattern :: rest => do
      match ← reading pattern with
      | .ok value => return some value
      | .error _ => firstReading reading rest

def Pattern.parseWithin : Nat → Resolver → Pattern → String → Option (Contractual Value)
  | 0, _, _, _ => none
  | fuel + 1, resolver, pattern, text =>
      match pattern with
      | .string => some (.ok (.string text))
      | .number => some (readNumber text)
      | .boolean => some (readBoolean text)
      | .null => some (readNull text)
      | .url scheme => some (readUrl scheme text)
      | .exact value => some (readExact text value)
      | .reference _ =>
          match resolver.resolve pattern with
          | .ok resolved => parseWithin fuel resolver resolved text
          | .error error => some (.error error)
      | .anyOf alternatives => do
          match ← firstReading (fun p => parseWithin fuel resolver p text) alternatives with
          | some value => return .ok value
          | none => return .error (.unreadable pattern.typeName text)
      | .object _ _ => some (readObject text)
      | .array _ _ | .repeated _ => some (readArray text)

def Pattern.parse (resolver : Resolver) (pattern : Pattern) (text : String) :
    Option (Contractual Value) :=
  -- A reading passes through references and unions only, so it meets no pattern twice.
  pattern.parseWithin (pattern.size + resolver.size + 2) resolver text

end ApiContract
