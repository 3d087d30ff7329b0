set_option autoImplicit false

namespace ApiContract.Breadcrumb

def index (i : Nat) : String :=
  "[" ++ toString i ++ "]"

def tail (i : Nat) : String :=
  "[" ++ toString i ++ "...]"

def append (path crumb : String) : String :=
  if path ≠ "" ∧ crumb.toList.head? ≠ some '[' then path ++ "." ++ crumb else path ++ crumb

def render (crumbs : List String) : String :=
  crumbs.foldl append ""

end ApiContract.Breadcrumb
