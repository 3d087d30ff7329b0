import ApiContract.Breadcrumb

set_option autoImplicit false

namespace ApiContract

inductive ContractError where
  | unknownType (name : String)
  | restNotLast (index : Nat)
  | invalidExample (key message : String)
  | malformed (message : String)
  | endlessRecursion (name : String)
  | invalidStub (message : String)
  | invalidDocument (message : String)
  | nested (crumb : String) (source : ContractError)
  deriving DecidableEq, Repr, Inhabited

namespace ContractError

def message : ContractError → String
  | .unknownType name => "type " ++ name ++ " is not defined"
  | .restNotLast index =>
      "a rest operator ... can only be used in the last entry of an array (found at index "
        ++ toString index ++ ")"
  | .invalidExample key message => "format error in example of \"" ++ key ++ "\": " ++ message
  | .malformed message => message
  | .endlessRecursion name =>
      "type " ++ name ++ " cannot be generated: it contains itself with no way out"
  | .invalidStub message => "invalid stub record: " ++ message
  | .invalidDocument message => "invalid contract document: " ++ message
  | .nested crumb source => crumb ++ " >> " ++ source.message

def crumbs : ContractError → List String
  | .nested crumb source => crumb :: source.crumbs
  | _ => []

def path (error : ContractError) : String :=
  Breadcrumb.render error.crumbs

def root : ContractError → ContractError
  | .nested _ source => source.root
  | error => error

def isEndlessRecursion (error : ContractError) : Bool :=
  match error.root with
  | .endlessRecursion _ => true
  | _ => false

def chain : ContractError → List String
  | .nested crumb source => (ContractError.nested crumb source).message :: source.chain
  | error => [error.message]

def unreadable (expected text : String) : ContractError :=
  .malformed ("expected " ++ expected ++ ", actual was \"" ++ text ++ "\"")

def selfDefined (name : String) : ContractError :=
  .malformed ("type " ++ name ++ " is defined only in terms of itself")

end ContractError

abbrev Contractual (α : Type) := Except ContractError α

def Contractual.under {α : Type} (crumb : String) : Contractual α → Contractual α
  | .ok a => .ok a
  | .error e => .error (.nested crumb e)

abbrev Attempt (α : Type) := ExceptT ContractError Option α

namespace Attempt

variable {α : Type}

def unending : Attempt α :=
  (none : Option (Contractual α))

def under (crumb : String) (attempt : Attempt α) : Attempt α :=
  Option.map (Contractual.under crumb) attempt

def ofOption (a? : Option α) : Attempt α :=
  Option.map Except.ok a?

def ofContractual (a : Contractual α) : Attempt α :=
  some a

def mapError (f : ContractError → ContractError) (attempt : Attempt α) : Attempt α :=
  Option.map (Except.mapError f) attempt

end Attempt

end ApiContract
