import ApiContract.Json.Reader
import ApiContract.Pattern.Token

set_option autoImplicit false

namespace ApiContract.Pattern

mutual

def ofJsonWith (text : String → Contractual Pattern) : Json → Contractual Pattern
  | .null => .ok .null
  | .bool b => .ok (.exact (.boolean b))
  | .number n => .ok (.exact (.number n))
  | .string s => text s
  | .array items => do arrayOf (← elementsWith text 0 items)
  | .object members => do return objectOf (← fieldsWith text members) .json

def elementsWith (text : String → Contractual Pattern) :
    Nat → List Json → Contractual (List Pattern)
  | _, [] => .ok []
  | i, item :: rest => do
      let pattern ← (ofJsonWith text item).under (Breadcrumb.index i)
      return pattern :: (← elementsWith text (i + 1) rest)

def fieldsWith (text : String → Contractual Pattern) :
    List (String × Json) → Contractual (List (String × Pattern))
  | [] => .ok []
  | (key, value) :: rest => do
      let pattern ← (ofJsonWith text value).under key
      return (key, pattern) :: (← fieldsWith text rest)

end

def readWithin : Nat → String → Contractual Pattern
  -- A string inside JSON text is shorter than the text, so its length bounds the nesting.
  | 0, text => .error (.malformed ("invalid json pattern " ++ text))
  | levels + 1, text =>
      let trimmed := Text.trimChars text.toList
      if Token.isToken trimmed then Token.read (Token.body trimmed)
      else if trimmed.head? = some '\x7b' ∨ trimmed.head? = some '[' then
        match Json.read (String.ofList trimmed) with
        | .ok json => ofJsonWith (readWithin levels) json
        | .error flaw =>
            .error (.malformed
              ("invalid json pattern " ++ String.ofList trimmed ++ ": " ++ flaw.message))
      else .ok (.exact (.string text))

def read (text : String) : Contractual Pattern :=
  readWithin (text.length + 1) text

def ofJson (json : Json) : Contractual Pattern :=
  ofJsonWith read json

def isQuoted (cs : List Char) : Bool :=
  2 ≤ cs.length && cs.head? = some '"' && cs.getLast? = some '"'

def ofCell (cell : String) : Contractual Pattern :=
  let trimmed := Text.trimChars cell.toList
  let text := String.ofList trimmed
  match Json.readNumber? text with
  | some n => .ok (.exact (.number n))
  | none =>
      if isQuoted trimmed then .ok (.exact (.string (String.ofList trimmed.tail.dropLast)))
      else
        match text with
        | "null" => .ok (.exact .null)
        | "true" => .ok (.exact (.boolean true))
        | "false" => .ok (.exact (.boolean false))
        | other => read other

def ofCells : List (String × String) → Contractual (List (String × Pattern))
  | [] => .ok []
  | (key, cell) :: rest => do
      let pattern ← (ofCell cell).under key
      return (key, pattern) :: (← ofCells rest)

def ofRows (rows : List (String × String)) : Contractual Pattern := do
  return objectOf (Entries.ofList (← ofCells rows)) .tabular

end ApiContract.Pattern
