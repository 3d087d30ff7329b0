import ApiContract.Number.Basic
import ApiContract.Text.Escaped

set_option autoImplicit false

namespace ApiContract.Json

inductive Found where
  | null
  | boolean (b : Bool)
  | number (n : Number)
  | text (s : String)
  | sequence
  | map
  deriving Repr

inductive Flaw where
  | endOfValue
  | endOfList
  | endOfObject
  | endOfString
  | noValue
  | noLiteral
  | badNumber
  | numberOutOfRange
  | trailingCharacters
  | trailingComma
  | noCommaOrBracket
  | noCommaOrBrace
  | noColon
  | keyNotText
  | controlCharacter
  | badEscape
  | halfSurrogatePair
  | loneSurrogate
  | tooDeep
  | missingField (name : String)
  | unknownField (name : String) (known : List String)
  | duplicateField (name : String)
  | wrongType (found : Found) (expected : String)
  | wrongValue (found : Found) (expected : String)
  | wrongLength (length : Nat) (expected : String)
  deriving Repr

def accented (text : String) : String :=
  "\x60" ++ text ++ "\x60"

def Found.describe : Found → String
  | .null => "null"
  | .boolean b => "boolean " ++ accented (if b then "true" else "false")
  | .number (.whole n) => "integer " ++ accented (Number.whole n).text
  | .number (.double d) => "floating point " ++ accented d.text
  | .text s => "string " ++ Text.escaped s
  | .sequence => "sequence"
  | .map => "map"

def Flaw.message : Flaw → String
  | .endOfValue => "EOF while parsing a value"
  | .endOfList => "EOF while parsing a list"
  | .endOfObject => "EOF while parsing an object"
  | .endOfString => "EOF while parsing a string"
  | .noValue => "expected value"
  | .noLiteral => "expected ident"
  | .badNumber => "invalid number"
  | .numberOutOfRange => "number out of range"
  | .trailingCharacters => "trailing characters"
  | .trailingComma => "trailing comma"
  | .noCommaOrBracket => "expected " ++ accented "," ++ " or " ++ accented "]"
  | .noCommaOrBrace => "expected " ++ accented "," ++ " or " ++ accented "\x7d"
  | .noColon => "expected " ++ accented ":"
  | .keyNotText => "key must be a string"
  | .controlCharacter =>
      "control character (\\u0000-\\u001F) found while parsing a string"
  | .badEscape => "invalid escape"
  | .halfSurrogatePair => "unexpected end of hex escape"
  | .loneSurrogate => "lone leading surrogate in hex escape"
  | .tooDeep => "recursion limit exceeded"
  | .missingField name => "missing field " ++ accented name
  | .unknownField name known =>
      "unknown field " ++ accented name ++ ", expected one of "
        ++ ", ".intercalate (known.map accented)
  | .duplicateField name => "duplicate field " ++ accented name
  | .wrongType found expected => "invalid type: " ++ found.describe ++ ", expected " ++ expected
  | .wrongValue found expected => "invalid value: " ++ found.describe ++ ", expected " ++ expected
  | .wrongLength length expected =>
      "invalid length " ++ toString length ++ ", expected " ++ expected

inductive Step where
  | key (name : String)
  | index (i : Nat)
  | unreadable
  deriving Repr

structure Fault where
  place : List Step
  flaw : Flaw
  deriving Repr

def Fault.of (flaw : Flaw) : Fault :=
  ⟨[], flaw⟩

def Fault.under (step : Step) (fault : Fault) : Fault :=
  { fault with place := step :: fault.place }

def placeTextFrom (first : Bool) : List Step → String
  | [] => ""
  | .index i :: rest => "[" ++ toString i ++ "]" ++ placeTextFrom false rest
  | .key name :: rest => (if first then "" else ".") ++ name ++ placeTextFrom false rest
  | .unreadable :: rest => (if first then "" else ".") ++ "?" ++ placeTextFrom false rest

def placeText : List Step → String
  | [] => "."
  | place => placeTextFrom true place

end ApiContract.Json
