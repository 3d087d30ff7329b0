import ApiContract.Pattern.Expansion
import ApiContract.Pattern.Generation
import ApiContract.Pattern.Rendering

set_option autoImplicit false

namespace ApiContract

inductive PathSegment where
  | literal (text : String)
  | param (name : String) (pattern : Pattern)
  deriving Repr

structure PathPattern where
  segments : List PathSegment
  deriving Repr

def pathSegments (path : String) : List String :=
  let beforeQuery := String.ofList (path.toList.takeWhile fun c => c ≠ '?')
  (Text.split '/' beforeQuery).filter fun segment => segment ≠ ""

namespace PathSegment

def read (segment : String) : Contractual PathSegment :=
  -- A token without a name is named after its type.
  if Token.isTokenText segment then
    let (name, type) := match Token.keyedText? segment with
      | some keyed => keyed
      | none => (Token.typeName segment, Token.typeName segment)
    do
      let pattern ← (Pattern.read (Pattern.inParentheses type)).under name
      return .param name pattern
  else .ok (.literal segment)

def sameShape : PathSegment → PathSegment → Bool
  | .literal a, .literal b => a = b
  | .param _ _, .param _ _ => true
  | _, _ => false

def same : PathSegment → PathSegment → Bool
  | .literal a, .literal b => a = b
  | .param a p, .param b q => a = b && p.same q
  | _, _ => false

def display : PathSegment → String
  | .literal text => "/" ++ text
  | .param _ (.exact value) => "/" ++ value.toText
  | .param name pattern => "/(" ++ name ++ ":" ++ pattern.typeName ++ ")"

end PathSegment

namespace PathPattern

def read (path : String) : Contractual PathPattern := do
  return ⟨← (pathSegments path).mapM PathSegment.read⟩

def params (path : PathPattern) : List (String × Pattern) :=
  path.segments.filterMap fun segment =>
    match segment with
    | .param name pattern => some (name, pattern)
    | .literal _ => none

def sameShape (a b : PathPattern) : Bool :=
  a.segments.length = b.segments.length
    && (a.segments.zip b.segments).all fun pair => pair.1.sameShape pair.2

def same (a b : PathPattern) : Bool :=
  a.segments.length = b.segments.length
    && (a.segments.zip b.segments).all fun pair => pair.1.same pair.2

def display (path : PathPattern) : String :=
  if path.segments.isEmpty then "/" else String.join (path.segments.map PathSegment.display)

def checkSegment (resolver : Resolver) : PathSegment × String → Option Verdict
  | (.literal expected, text) =>
      return if expected = text then .success
        else .fail ("Expected \"" ++ expected ++ "\", actual was \"" ++ text ++ "\"")
  | (.param name pattern, text) => do
      match ← pattern.parse resolver text with
      | .ok value => return (← pattern.check resolver value).under name
      | .error error => return (Verdict.fail error.message).under name

def check (resolver : Resolver) (path : PathPattern) (actual : String) : Option Verdict :=
  let texts := pathSegments actual
  if texts.length ≠ path.segments.length then
    return .fail ("Expected a path like " ++ path.display ++ ", actual was \"" ++ actual ++ "\"")
  else Verdict.every (checkSegment resolver) (path.segments.zip texts)

def generateSegment (resolver : Resolver) : PathSegment → Gen String
  | .literal text => return "/" ++ text
  | .param name pattern => do
      return "/" ++ (← (pattern.generate resolver).under name).toText

def generateSegments (resolver : Resolver) : List PathSegment → Gen String
  | [] => return ""
  | segment :: rest => do
      return (← generateSegment resolver segment) ++ (← generateSegments resolver rest)

def generate (resolver : Resolver) (path : PathPattern) : Gen String := do
  let text ← generateSegments resolver path.segments
  return if text = "" then "/" else text

def encompasses (these those : Resolver) (bigger smaller : PathPattern) : Option Verdict :=
  -- Parameters compare by position; their names do not matter.
  Verdict.every (fun pair : PathSegment × PathSegment =>
      match pair with
      | (.param name a, .param _ b) =>
          return (← Pattern.encompasses these those a b).under name
      | _ => return .success)
    (bigger.segments.zip smaller.segments)

def withParams (path : PathPattern) (params : List (String × Pattern)) : PathPattern :=
  ⟨path.segments.map fun segment =>
    match segment with
    | .param name pattern => .param name ((Entries.get? params name).getD pattern)
    | literal => literal⟩

def expand (resolver : Resolver) (row : Row) (path : PathPattern) : Attempt (List PathPattern) := do
  -- Parameters expand like the fields of an object of those names.
  let params := Pattern.objectOf (Entries.ofList path.params) .json
  let variants ← params.expand resolver row
  return variants.filterMap fun variant =>
    match variant with
    | .object fields _ => some (path.withParams fields)
    | _ => none

end PathPattern

end ApiContract
