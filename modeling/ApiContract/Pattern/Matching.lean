import ApiContract.Resolver
import ApiContract.Verdict

set_option autoImplicit false

namespace ApiContract

def onlyRefusal? (alternatives : List Pattern) (failures : List Failure) : Option Failure :=
  match (alternatives.zip failures).filter fun pair => !pair.1.isNull with
  | [(_, failure)] => some failure
  | _ => none

def lengthMismatch (members : Members) (actual : Nat) : Verdict :=
  .fail ("Expected an array of length " ++ members.lengthText ++ ", actual length "
    ++ toString actual)

def unexpectedKey? (fields : List (String × Pattern)) (actual : List (String × Value)) :
    Option String :=
  (Entries.keys actual).find? fun key => (field? fields key).isNone

section

variable {m : Type → Type} [Monad m]

def everyItem (check : Value → m Verdict) (start : Nat) (items : List Value) : m Verdict :=
  Verdict.every (fun item => Verdict.under (Breadcrumb.index item.2) <$> check item.1)
    (items.zipIdx start)

def missingKeys (acceptsNull : Pattern → m Verdict) (fields : List (String × Pattern))
    (actual : List (String × Value)) : m Verdict :=
  -- Required keys have to be there unless null does for them.
  Verdict.every (fun field => do
      if Entries.contains actual field.1 then return .success
      match ← acceptsNull field.2 with
      | .success => return .success
      | .failure _ =>
          return (Verdict.fail ("Key " ++ field.1 ++ " is missing")).under field.1)
    (requiredFields fields)

def declaredMembers (check : Pattern → Value → m Verdict) (fields : List (String × Pattern))
    (actual : List (String × Value)) : m Verdict :=
  Verdict.every (fun field => do
      match Entries.get? actual (bareName field.1) with
      | none => return .success
      | some value =>
          if isOptional field.1 && value.isNull then return .success
          return (← check field.2 value).under (bareName field.1))
    fields

def matchObject (check : Pattern → Value → m Verdict) (fields : List (String × Pattern))
    (traits : ObjectTraits) : Value → m Verdict
  | .object actual =>
      Verdict.thenCheck (missingKeys (fun pattern => check pattern .null) fields actual) fun _ =>
        match traits.unexpected, unexpectedKey? fields actual with
        | .reject, some key =>
            return (Verdict.fail ("Key " ++ key ++ " was unexpected")).under key
        | _, _ => declaredMembers check fields actual
  | value => return .mismatch "json object" value

def matchFixed (check : Pattern → Value → m Verdict) (members : Members) (length : Nat) :
    Nat → List Pattern → List Value → m Verdict
  -- The fixed elements one by one; a value that stops before them has the wrong length.
  | _, [], _ => return .success
  | _, _ :: _, [] => return lengthMismatch members length
  | i, pattern :: patterns, item :: items =>
      Verdict.thenCheck (Verdict.under (Breadcrumb.index i) <$> check pattern item) fun _ =>
        matchFixed check members length (i + 1) patterns items

def matchArray (check : Pattern → Value → m Verdict) (elements : List Pattern) :
    Value → m Verdict
  | .array items =>
      -- An array pattern without elements takes every array.
      if elements.isEmpty then return .success
      else
        let members := Members.ofElements elements
        let fixed := members.fixed.length
        Verdict.thenCheck (matchFixed check members items.length 0 members.fixed items) fun _ =>
          match members.tail with
          | some tail => everyItem (check tail) fixed (items.drop fixed)
          | none =>
              return if fixed < items.length then lengthMismatch members items.length
                else .success
  | value => return .mismatch "json array" value

end

def matchUrl (scheme : UrlScheme) : Value → Verdict
  | .string s =>
      if scheme.accepts s then .success
      else .fail ("Expected url with prefix " ++ scheme.start ++ ", actual was \"" ++ s ++ "\"")
  | value => .mismatch "url" value

def Pattern.checkStep (check : Resolver → Pattern → Value → Option Verdict) (resolver : Resolver)
    (pattern : Pattern) (value : Value) : Option Verdict :=
  match pattern with
  | .string =>
      match value with
      | .string _ => some .success
      | other => some (.mismatch "string" other)
  | .number =>
      match value with
      | .number _ => some .success
      | other => some (.mismatch "number" other)
  | .boolean =>
      match value with
      | .boolean _ => some .success
      | other => some (.mismatch "boolean" other)
  | .null =>
      if value.isNull || value.isEmptyString then some .success
      else some (.mismatch "null" value)
  | .url scheme => some (matchUrl scheme value)
  | .exact expected =>
      if expected.same value then some .success
      else some (.mismatch expected.display value)
  | .repeated inner =>
      match value with
      | .array items => everyItem (check resolver inner) 0 items
      | other => some (.mismatch "json array" other)
  | .reference _ =>
      match resolver.resolve pattern with
      | .ok resolved => check resolver resolved value
      | .error error => some (.fail error.message)
  | .anyOf alternatives => do
      match ← Verdict.refusals (fun p => check resolver p value) alternatives with
      | none => return .success
      | some failures =>
          match onlyRefusal? alternatives failures with
          | some failure => return .failure failure
          | none => return .mismatch pattern.typeName value
  | .object fields traits => matchObject (check resolver.tolerant) fields traits value
  | .array elements _ => matchArray (check resolver.tolerant) elements value

def Pattern.checkWithin : Nat → Resolver → Pattern → Value → Option Verdict
  | 0, _, _, _ => none
  | fuel + 1, resolver, pattern, value => checkStep (checkWithin fuel) resolver pattern value

def Pattern.checkBound (resolver : Resolver) (pattern : Pattern) (value : Value) : Nat :=
  -- Without a step into the value no pattern of the registry is met twice.
  2 * (pattern.size + resolver.size + 2) * (value.depth + 2)

def Pattern.check (resolver : Resolver) (pattern : Pattern) (value : Value) : Option Verdict :=
  pattern.checkWithin (checkBound resolver pattern value) resolver value

end ApiContract
