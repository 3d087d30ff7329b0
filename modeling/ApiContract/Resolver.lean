import ApiContract.Pattern.Token

set_option autoImplicit false

namespace ApiContract

inductive KeyCombinations where
  -- Optional objects and arrays are left out and put in, optional scalars are left out.
  | compositeOnly
  -- Every optional key is left out and put in.
  | exhaustive
  deriving DecidableEq, Repr

abbrev Row := Entries String

structure Resolver where
  types : Entries Pattern
  nullTolerant : Bool
  row : Option Row
  combinations : KeyCombinations
  deriving Repr

namespace Resolver

def ofTypes (types : List (String × Pattern)) : Resolver where
  types := Entries.ofList (types.map fun type =>
    (Token.typeName type.1, type.2.withAlias (Token.typeName type.1)))
  nullTolerant := false
  row := none
  combinations := .compositeOnly

def empty : Resolver :=
  ofTypes []

def get (resolver : Resolver) (name : String) : Contractual Pattern :=
  let bare := Token.typeName name
  match Entries.get? resolver.types bare with
  | some pattern => .ok pattern
  | none =>
      if resolver.nullTolerant && bare = "null" then .ok .null else .error (.unknownType bare)

def contains (resolver : Resolver) (name : String) : Bool :=
  Entries.contains resolver.types (Token.typeName name)

def typeNames (resolver : Resolver) : List String :=
  Entries.keys resolver.types

def tolerant (resolver : Resolver) : Resolver :=
  { resolver with nullTolerant := true }

def withRow (resolver : Resolver) (row : Row) : Resolver :=
  { resolver with row := some row }

def withCombinations (resolver : Resolver) (combinations : KeyCombinations) : Resolver :=
  { resolver with combinations }

def cell? (resolver : Resolver) (name : String) : Option String :=
  resolver.row.bind fun row => Entries.get? row name

def follow (resolver : Resolver) : Nat → Pattern → Contractual Pattern
  -- Follows references, at most `hops` and one more to see whether the chain is cyclic.
  | 0, .reference name => do
      let _ ← resolver.get name
      .error (.selfDefined name)
  | hops + 1, .reference name => do
      follow resolver hops (← resolver.get name)
  | _, pattern => .ok pattern

def resolve (resolver : Resolver) (pattern : Pattern) : Contractual Pattern :=
  -- An acyclic chain meets each registered name at most once, and `null` after them.
  resolver.follow (resolver.types.length + 1) pattern

def size (resolver : Resolver) : Nat :=
  Pattern.sizeFields resolver.types

end Resolver

end ApiContract
