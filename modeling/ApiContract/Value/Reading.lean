import ApiContract.Json.Reader
import ApiContract.Value.Basic

set_option autoImplicit false

namespace ApiContract.Value

def read (text : String) : Except String Value :=
  match Json.read text with
  | .ok json => .ok (ofJson json)
  | .error flaw =>
      .error ("expected json, actual was \"" ++ text ++ "\": " ++ flaw.message)

end ApiContract.Value
