import ApiContract.Draw

set_option autoImplicit false

namespace ApiContract.CommandLine

structure Host (m : Type → Type) where
  read : String → m (Except String String)
  write : String → String → m (Except String Unit)
  createDirectories : String → m (Except String Unit)
  isPresent : String → m Bool
  isDirectory : String → m Bool
  -- The names in a directory, in any order.
  names : String → m (List String)
  print : String → m Unit
  complain : String → m Unit
  answer : (d : Draw) → m d.Answer
  coloured : Bool

end ApiContract.CommandLine
