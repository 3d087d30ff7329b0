import ApiContract.CommandLine.Run

set_option autoImplicit false

namespace ApiContract.CommandLine

def reasonOf : IO.Error → String
  | .noFileOrDirectory _ _ _ => "No such file or directory (os error 2)"
  | .inappropriateType _ code details => coded code details
  | .permissionDenied _ code details => coded code details
  | .alreadyExists _ code details => coded code details
  | .invalidArgument _ code details => coded code details
  | .resourceExhausted _ code details => coded code details
  | error => toString error
where
  coded (code : UInt32) (details : String) : String :=
    details ++ " (os error " ++ toString code ++ ")"

def attempted {α : Type} (action : IO α) : IO (Except String α) := do
  try return .ok (← action)
  catch error => return .error (reasonOf error)

def readText (path : String) : IO String := do
  match String.fromUTF8? (← IO.FS.withFile path .read IO.FS.Handle.readBinToEnd) with
  | some text => return text
  | none => throw (IO.userError "stream did not contain valid UTF-8")

def located (path : String) :=
  (fun directory => directory / path) <$> IO.currentDir

def makeDirectory (path : String) : IO Unit := do
  try IO.FS.createDir path
  catch error =>
    unless ← (← located path).isDir do throw error

partial def makeDirectories (path : String) : IO Unit := do
  if path ≠ "" then
    try makeDirectory path
    catch
      | .noFileOrDirectory _ _ _ => do
          makeDirectories (directoryOf path)
          makeDirectory path
      | error => throw error

def draw : (d : Draw) → IO d.Answer
  | .word => (Vector.replicate 5 ()).mapM fun _ => upTo 25
  | .number => upTo 999
  | .coin => do return (← IO.rand 0 1) == 1
  | .pick others => upTo others
where
  upTo (last : Nat) : IO (Fin (last + 1)) := do
    return ⟨(← IO.rand 0 last) % (last + 1), Nat.mod_lt _ (Nat.succ_pos last)⟩

def thisMachine (coloured : Bool) : Host IO where
  read path := attempted (readText path)
  write path text := attempted (IO.FS.writeFile path text)
  createDirectories path := attempted (makeDirectories path)
  isPresent path := do (← located path).pathExists
  isDirectory path := do (← located path).isDir
  names path := do return (← (← located path).readDir).toList.map fun entry => entry.fileName
  print := IO.println
  complain := IO.eprintln
  answer := draw
  coloured

def environmentNames : List String :=
  ["SHAPE_COMPAT_THREADS", "CLICOLOR_FORCE", "NO_COLOR", "CLICOLOR"]

def readEnvironment : IO (Entries String) := do
  environmentNames.filterMapM fun name => do
    return (← IO.getEnv name).map fun value => (name, value)

end ApiContract.CommandLine

open ApiContract.CommandLine in
def main (arguments : List String) : IO UInt32 := do
  let environment := (← readEnvironment).get?
  let coloured := isColoured environment (← (← IO.getStdout).isTty)
  return UInt32.ofNat (← start (thisMachine coloured) environment arguments)
