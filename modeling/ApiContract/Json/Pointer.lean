import ApiContract.Json.Basic
import ApiContract.Text.Split

set_option autoImplicit false

namespace ApiContract.Json

def pointerStep : List Char → List Char
  | '~' :: '1' :: rest => '/' :: pointerStep rest
  | '~' :: '0' :: rest => '~' :: pointerStep rest
  | c :: rest => c :: pointerStep rest
  | [] => []

def follow (json : Json) : List (List Char) → Option Json
  | [] => some json
  | step :: rest => (json.step? (String.ofList (pointerStep step))).bind fun inner =>
      inner.follow rest

def pointer? (json : Json) (pointer : String) : Option Json :=
  match pointer.toList with
  | [] => some json
  | '/' :: rest => json.follow (Text.splitChars '/' rest)
  | _ => none

end ApiContract.Json
