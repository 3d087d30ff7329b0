import ApiContract.Json.Printer
import ApiContract.Value.Xml

set_option autoImplicit false

namespace ApiContract

inductive Value where
  | null
  | boolean (b : Bool)
  | number (n : Number)
  | string (s : String)
  | object (members : List (String × Value))
  | array (items : List Value)
  | xml (node : Xml)
  deriving Repr, Inhabited

namespace Value

def isNull : Value → Bool
  | .null => true
  | _ => false

/-- The empty string is how a request or response says that it has no body. -/
def isEmptyString : Value → Bool
  | .string s => s = ""
  | _ => false

def typeName : Value → String
  | .null => "null"
  | .boolean _ => "boolean"
  | .number _ => "number"
  | .string _ => "string"
  | .object _ => "json object"
  | .array _ => "json array"
  | .xml _ => "xml"

mutual

def ofJson : Json → Value
  | .null => .null
  | .bool b => .boolean b
  | .number n => .number n
  | .string s => .string s
  | .array items => .array (ofJsonItems items)
  | .object members => .object (ofJsonMembers members)

def ofJsonItems : List Json → List Value
  | [] => []
  | item :: rest => ofJson item :: ofJsonItems rest

def ofJsonMembers : List (String × Json) → List (String × Value)
  | [] => []
  | (key, value) :: rest => (key, ofJson value) :: ofJsonMembers rest

end

mutual

def toJson : Value → Json
  | .null => .null
  | .boolean b => .bool b
  | .number n => .number n
  | .string s => .string s
  | .array items => .array (toJsonItems items)
  | .object members => .object (toJsonMembers members)
  | .xml node => .string node.render

def toJsonItems : List Value → List Json
  | [] => []
  | item :: rest => toJson item :: toJsonItems rest

def toJsonMembers : List (String × Value) → List (String × Json)
  | [] => []
  | (key, value) :: rest => (key, toJson value) :: toJsonMembers rest

end

def display : Value → String
  | .xml node => node.render
  | value => value.toJson.compact

def toText : Value → String
  | .null => ""
  | .string s => s
  | .xml node => node.render
  | value => value.toJson.compact

mutual

def same : Value → Value → Bool
  | .null, .null => true
  | .boolean a, .boolean b => a = b
  | .number a, .number b => a.same b
  | .string a, .string b => a = b
  | .object a, .object b => a.length = b.length && sameMembers a b
  | .array a, .array b => sameItems a b
  | .xml a, .xml b => a.same b
  | _, _ => false

def sameMembers : List (String × Value) → List (String × Value) → Bool
  | [], _ => true
  | (key, value) :: rest, others =>
      (match Entries.get? others key with
        | some other => same value other
        | none => false) && sameMembers rest others

def sameItems : List Value → List Value → Bool
  | [], [] => true
  | a :: as, b :: bs => same a b && sameItems as bs
  | _, _ => false

end

mutual

def depth : Value → Nat
  | .object members => depthMembers members + 1
  | .array items => depthItems items + 1
  | _ => 1

def depthItems : List Value → Nat
  | [] => 0
  | item :: rest => max (depth item) (depthItems rest)

def depthMembers : List (String × Value) → Nat
  | [] => 0
  | (_, value) :: rest => max (depth value) (depthMembers rest)

end

end Value

end ApiContract
