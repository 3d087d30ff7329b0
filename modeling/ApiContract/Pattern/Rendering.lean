import ApiContract.Pattern.Token

set_option autoImplicit false

namespace ApiContract.Pattern

def tokenText (pattern : Pattern) (json : Json) : String :=
  match pattern, json with
  | .exact value, _ => value.toText
  | _, .string s => s
  | _, other => other.compact

def withoutParentheses (text : String) : String :=
  let cs := text.toList
  if Token.opensAndCloses cs then String.ofList cs.tail.dropLast else text

def inParentheses (text : String) : String :=
  "(" ++ text ++ ")"

mutual

def toJson : Pattern → Json
  | .exact value => value.toJson
  | .reference name => .string (inParentheses name)
  | .repeated inner =>
      .string (inParentheses (withoutParentheses (tokenText inner (toJson inner)) ++ "..."))
  | .object fields traits =>
      let members := Entries.ofList (toJsonFields fields)
      match traits.unexpected with
      | .ignore => .object (Entries.insert members openKey (.string ""))
      | .reject => .object members
  | .array elements _ => .array (toJsonAll elements)
  | scalar => .string (inParentheses scalar.typeName)

def toJsonAll : List Pattern → List Json
  | [] => []
  | pattern :: rest => toJson pattern :: toJsonAll rest

def toJsonFields : List (String × Pattern) → List (String × Json)
  | [] => []
  | (key, pattern) :: rest => (key, toJson pattern) :: toJsonFields rest

end

def display (pattern : Pattern) : String :=
  match pattern.toJson with
  | .string s => s
  | other => other.compact

end ApiContract.Pattern
