import ApiContract.Entries

set_option autoImplicit false

namespace ApiContract

inductive Xml where
  | element (name : String) (attributes : List (String × String)) (children : List Xml)
  | text (s : String)
  deriving Repr, Inhabited

namespace Xml

def entity (c : Char) : List Char :=
  if c = '&' then ['&', 'a', 'm', 'p', ';']
  else if c = '<' then ['&', 'l', 't', ';']
  else if c = '>' then ['&', 'g', 't', ';']
  else if c = '"' then ['&', 'q', 'u', 'o', 't', ';']
  else [c]

def escape (s : String) : String :=
  String.ofList (s.toList.flatMap entity)

def renderAttributes : List (String × String) → String
  | [] => ""
  | (key, value) :: rest => " " ++ key ++ "=\"" ++ escape value ++ "\"" ++ renderAttributes rest

mutual

def render : Xml → String
  | .element name attributes [] => "<" ++ name ++ renderAttributes attributes ++ "/>"
  | .element name attributes children =>
      "<" ++ name ++ renderAttributes attributes ++ ">" ++ renderAll children ++ "</" ++ name ++ ">"
  | .text s => escape s

def renderAll : List Xml → String
  | [] => ""
  | child :: rest => render child ++ renderAll rest

end

def sameAttributes (a b : List (String × String)) : Bool :=
  a.length = b.length && a.all fun entry => Entries.get? b entry.1 = some entry.2

mutual

def same : Xml → Xml → Bool
  | .element n a xs, .element m b ys => n = m && sameAttributes a b && sameAll xs ys
  | .text s, .text t => s = t
  | _, _ => false

def sameAll : List Xml → List Xml → Bool
  | [], [] => true
  | x :: xs, y :: ys => same x y && sameAll xs ys
  | _, _ => false

end

end Xml

end ApiContract
