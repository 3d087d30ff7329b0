import ApiContract.Entries
import ApiContract.Number.Basic

set_option autoImplicit false

namespace ApiContract

inductive Json where
  | null
  | bool (b : Bool)
  | number (n : Number)
  | string (s : String)
  | array (items : List Json)
  | object (members : List (String × Json))
  deriving Repr, Inhabited

namespace Json

def member? (members : List (String × Json)) (key : String) : Option Json :=
  Entries.get? members key

def index? (step : String) : Option Nat :=
  let digits := step.toList
  if digits ≠ [] ∧ digits.all Char.isDigit ∧ (digits.length = 1 ∨ digits.head? ≠ some '0') then
    some (digits.foldl (fun n c => 10 * n + (c.toNat - 48)) 0)
  else none

def step? : Json → String → Option Json
  | .object members, key => member? members key
  | .array items, key => (index? key).bind fun i => items[i]?
  | _, _ => none

end Json

end ApiContract
