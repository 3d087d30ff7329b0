import ApiContract.Value.Basic

set_option autoImplicit false

namespace ApiContract

structure HttpRequest where
  method : String
  path : String
  query : Entries String
  headers : Entries String
  body : Value
  deriving Repr

structure HttpResponse where
  status : UInt16
  headers : Entries String
  body : Value
  deriving Repr

def shortNumber (n : UInt16) : Number :=
  .ofNat n.toNat (by have := n.toNat_lt; omega)

def textMembers (key : String) (texts : Entries String) : List (String × Json) :=
  if texts.isEmpty then [] else [(key, .object (Entries.mapValues .string texts))]

def bodyMember (body : Value) : List (String × Json) :=
  if body.isNull then [] else [("body", body.toJson)]

def HttpRequest.toJson (request : HttpRequest) : Json :=
  .object ([("method", .string request.method), ("path", .string request.path)]
    ++ textMembers "query" request.query ++ textMembers "headers" request.headers
    ++ bodyMember request.body)

def HttpResponse.toJson (response : HttpResponse) : Json :=
  .object ([("status", .number (shortNumber response.status))]
    ++ textMembers "headers" response.headers ++ bodyMember response.body)

def sameTexts (a b : Entries String) : Bool :=
  a.length = b.length && a.all fun entry => Entries.get? b entry.1 = some entry.2

def HttpRequest.same (a b : HttpRequest) : Bool :=
  a.method = b.method && a.path = b.path && sameTexts a.query b.query
    && sameTexts a.headers b.headers && a.body.same b.body

def HttpResponse.same (a b : HttpResponse) : Bool :=
  a.status = b.status && sameTexts a.headers b.headers && a.body.same b.body

end ApiContract
