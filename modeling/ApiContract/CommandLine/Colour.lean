set_option autoImplicit false

namespace ApiContract.CommandLine

inductive Style where
  | green
  | red
  | faint
  deriving DecidableEq, Repr

def Style.start : Style → List Char
  | .green => "\x1b[32m".toList
  | .red => "\x1b[31m".toList
  | .faint => "\x1b[2m".toList

def styleEnd : List Char :=
  ['\x1b', '[', '0', 'm']

def restyled (start : List Char) : List Char → List Char
  | '\x1b' :: '[' :: '0' :: 'm' :: rest => styleEnd ++ start ++ restyled start rest
  | c :: rest => c :: restyled start rest
  | [] => []

def paint (coloured : Bool) (style : Style) (text : String) : String :=
  if coloured then
    String.ofList (style.start ++ restyled style.start text.toList ++ styleEnd)
  else text

def isColoured (environment : String → Option String) (terminal : Bool) : Bool :=
  if (environment "CLICOLOR_FORCE").any (· ≠ "0") then true
  else if (environment "NO_COLOR").isSome then false
  else terminal && (environment "CLICOLOR").all (· ≠ "0")

end ApiContract.CommandLine
