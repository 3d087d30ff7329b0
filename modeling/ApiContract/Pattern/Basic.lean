import ApiContract.ContractError
import ApiContract.Text.Split
import ApiContract.Value.Basic

set_option autoImplicit false

namespace ApiContract

inductive UrlScheme where
  | http
  | https
  | any
  | path
  deriving DecidableEq, Repr

namespace UrlScheme

def start : UrlScheme → String
  | .http => "http://"
  | .https => "https://"
  | .any => "http"
  | .path => "/"

def accepts (scheme : UrlScheme) (text : String) : Bool :=
  match scheme with
  | .any => Text.startsWith text "http://" || Text.startsWith text "https://"
  | other => Text.startsWith text other.start

def encompasses (bigger smaller : UrlScheme) : Bool :=
  bigger = smaller || (bigger = .any && (smaller = .http || smaller = .https))

def typeName : UrlScheme → String
  | .http => "url http"
  | .https => "url https"
  | .any => "url"
  | .path => "url path"

end UrlScheme

inductive UnexpectedKeys where
  | reject
  | ignore
  deriving DecidableEq, Repr

inductive ObjectKind where
  | json
  | tabular
  deriving DecidableEq, Repr

structure ObjectTraits where
  unexpected : UnexpectedKeys
  kind : ObjectKind
  knownAs : Option String
  deriving DecidableEq, Repr

inductive Pattern where
  | string
  | number
  | boolean
  | null
  | url (scheme : UrlScheme)
  | exact (value : Value)
  | repeated (inner : Pattern)
  | reference (name : String)
  | anyOf (alternatives : List Pattern)
  | object (fields : List (String × Pattern)) (traits : ObjectTraits)
  | array (elements : List Pattern) (knownAs : Option String)
  deriving Repr, Inhabited

def isOptional (key : String) : Bool :=
  key.toList.getLast? = some '?'

def bareName (key : String) : String :=
  if isOptional key then String.ofList key.toList.dropLast else key

def openKey : String := "..."

namespace Pattern

def isNull : Pattern → Bool
  | .null => true
  | _ => false

def isRepeated : Pattern → Bool
  | .repeated _ => true
  | _ => false

mutual

/-- Equality as sets of values are written: key order, kind and name of objects play no part. -/
def same : Pattern → Pattern → Bool
  | .string, .string => true
  | .number, .number => true
  | .boolean, .boolean => true
  | .null, .null => true
  | .url a, .url b => a = b
  | .exact a, .exact b => a.same b
  | .repeated a, .repeated b => same a b
  | .reference a, .reference b => a = b
  | .anyOf a, .anyOf b => sameAll a b
  | .object a s, .object b t =>
      a.length = b.length && sameFields a b && s.unexpected = t.unexpected
  | .array a _, .array b _ => sameAll a b
  | _, _ => false

def sameAll : List Pattern → List Pattern → Bool
  | [], [] => true
  | a :: as, b :: bs => same a b && sameAll as bs
  | _, _ => false

def sameFields : List (String × Pattern) → List (String × Pattern) → Bool
  | [], _ => true
  | (key, pattern) :: rest, others =>
      (match Entries.get? others key with
        | some other => same pattern other
        | none => false) && sameFields rest others

end

mutual

def typeName : Pattern → String
  | .string => "string"
  | .number => "number"
  | .boolean => "boolean"
  | .null => "null"
  | .url scheme => scheme.typeName
  | .exact value => "(" ++ value.display ++ ")"
  | .repeated inner => typeName inner ++ "..."
  | .reference name => name
  | .anyOf alternatives =>
      match alternatives, typeNames alternatives with
      | [.null, _], [_, name] => name ++ "?"
      | [_, .null], [name, _] => name ++ "?"
      | _, names => " or ".intercalate names
  | .object _ _ => "json object"
  | .array _ _ => "json array"

def typeNames : List Pattern → List String
  | [] => []
  | pattern :: rest => typeName pattern :: typeNames rest

end

def nullable : Pattern → Pattern
  | .null => .null
  | .anyOf alternatives =>
      if alternatives.any isNull then .anyOf alternatives else .anyOf [.null, .anyOf alternatives]
  | other => .anyOf [.null, other]

def knownAs : Pattern → Option String
  | .object _ traits => traits.knownAs
  | .array _ knownAs => knownAs
  | _ => none

def name? : Pattern → Option String
  | .reference name => some name
  | pattern => pattern.knownAs

def withAlias (pattern : Pattern) (name : String) : Pattern :=
  -- Only objects and arrays carry the name they are registered under.
  match pattern with
  | .object fields traits => .object fields { traits with knownAs := some name }
  | .array elements _ => .array elements (some name)
  | other => other

def objectOf (fields : List (String × Pattern)) (kind : ObjectKind) : Pattern :=
  -- An object from its declared keys; the open key is a trait and no field.
  .object (Entries.erase fields openKey)
    { unexpected := if Entries.contains fields openKey then .ignore else .reject
      kind, knownAs := none }

def misplacedRepeated? (elements : List Pattern) : Option Nat :=
  match elements.findIdx? isRepeated with
  | none => none
  | some i => if i + 1 = elements.length then none else some i

def arrayOf (elements : List Pattern) : Contractual Pattern :=
  match misplacedRepeated? elements with
  | some i => .error (.restNotLast i)
  | none => .ok (.array elements none)

mutual

def size : Pattern → Nat
  | .repeated inner => size inner + 1
  | .anyOf alternatives => sizeAll alternatives + 1
  | .object fields _ => sizeFields fields + 1
  | .array elements _ => sizeAll elements + 1
  | _ => 1

def sizeAll : List Pattern → Nat
  | [] => 0
  | pattern :: rest => size pattern + sizeAll rest

def sizeFields : List (String × Pattern) → Nat
  | [] => 0
  | (_, pattern) :: rest => size pattern + sizeFields rest

end

mutual

def names : Pattern → List String
  | .repeated inner => names inner
  | .reference name => [name]
  | .anyOf alternatives => namesAll alternatives
  | .object fields traits => traits.knownAs.toList ++ namesFields fields
  | .array elements knownAs => knownAs.toList ++ namesAll elements
  | _ => []

def namesAll : List Pattern → List String
  | [] => []
  | pattern :: rest => names pattern ++ namesAll rest

def namesFields : List (String × Pattern) → List String
  | [] => []
  | (_, pattern) :: rest => names pattern ++ namesFields rest

end

end Pattern

structure ObjectPattern where
  fields : List (String × Pattern)
  unexpected : UnexpectedKeys
  kind : ObjectKind
  deriving Repr

namespace ObjectPattern

def toPattern (object : ObjectPattern) : Pattern :=
  .object object.fields { unexpected := object.unexpected, kind := object.kind, knownAs := none }

def ofFields (fields : List (String × Pattern)) (kind : ObjectKind) : ObjectPattern where
  fields := Entries.erase fields openKey
  unexpected := if Entries.contains fields openKey then .ignore else .reject
  kind := kind

end ObjectPattern

def field? (fields : List (String × Pattern)) (name : String) : Option (String × Pattern) :=
  match Entries.get? fields name with
  | some pattern => some (name, pattern)
  | none => (Entries.get? fields (name ++ "?")).map fun pattern => (name ++ "?", pattern)

def requiredFields (fields : List (String × Pattern)) : List (String × Pattern) :=
  fields.filter fun field => !isOptional field.1

structure Members where
  fixed : List Pattern
  tail : Option Pattern
  deriving Repr

namespace Members

def ofElements (elements : List Pattern) : Members :=
  match elements.getLast? with
  | some (.repeated inner) => ⟨elements.dropLast, some inner⟩
  | _ => ⟨elements, none⟩

def isEndless (members : Members) : Bool :=
  members.tail.isSome

def at? (members : Members) (i : Nat) : Option Pattern :=
  (members.fixed[i]?).or members.tail

def lengthText (members : Members) : String :=
  match members.tail with
  | some _ => "at least " ++ toString members.fixed.length
  | none => toString members.fixed.length

end Members

end ApiContract
