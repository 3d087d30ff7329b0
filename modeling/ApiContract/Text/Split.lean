set_option autoImplicit false

namespace ApiContract.Text

def startsWith (text start : String) : Bool :=
  start.toList.isPrefixOf text.toList

def endsWith (text ending : String) : Bool :=
  ending.toList.isSuffixOf text.toList

def splitChars (separator : Char) : List Char → List (List Char)
  | [] => [[]]
  | c :: rest =>
      if c = separator then [] :: splitChars separator rest
      else
        match splitChars separator rest with
        | [] => [[c]]
        | piece :: pieces => (c :: piece) :: pieces

def split (separator : Char) (text : String) : List String :=
  (splitChars separator text.toList).map String.ofList

def lines (text : String) : List String :=
  -- A line ends at a line feed, with or without a carriage return before it.
  let pieces := splitChars '\n' text.toList
  let ended := pieces.dropLast.map fun piece =>
    if piece.getLast? = some '\r' then piece.dropLast else piece
  let last := match pieces.getLast? with
    | none | some [] => []
    | some piece => [piece]
  (ended ++ last).map String.ofList

def asciiLower (text : String) : String :=
  text.map Char.toLower

def asciiUpper (text : String) : String :=
  text.map Char.toUpper

def sameIgnoringAsciiCase (a b : String) : Bool :=
  asciiLower a = asciiLower b

end ApiContract.Text
