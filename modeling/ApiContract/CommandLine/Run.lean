import ApiContract.CommandLine.Arguments
import ApiContract.CommandLine.Colour
import ApiContract.CommandLine.Glob
import ApiContract.Compatibility
import ApiContract.Json.Pointer
import ApiContract.Json.Reader
import ApiContract.Stub

set_option autoImplicit false

namespace ApiContract.CommandLine

abbrev Run (m : Type → Type) := ExceptT (List String) m

section Commands

variable {m : Type → Type} [Monad m] {α : Type}

def give (result : Except (List String) α) : Run m α :=
  ExceptT.mk (pure result)

def ask (context : List String) (request : m (Except String α)) : Run m α :=
  ExceptT.mk do return (← request).mapError fun reason => context ++ [reason]

def fail (reason : String) : Run m α :=
  throw [reason]

def orEndless (result : Option α) : Run m α :=
  match result with
  | some a => pure a
  | none => fail "a type of the contract contains itself with no way out"

def loadFeature (host : Host m) (path : String) : m (Contractual Feature) := do
  match ← host.read path with
  | .ok text => return Feature.read text
  | .error reason =>
      return .error (.invalidDocument ("cannot read " ++ path ++ ": " ++ reason))

def loadContract (host : Host m) (path : String) : Run m Feature :=
  ExceptT.mk do
    return (← loadFeature host path).mapError fun error =>
      ("failed to load contract " ++ path) :: error.chain

def loadBoth (host : Host m) (older newer : String) : m (Except String (Feature × Feature)) := do
  match ← loadFeature host older with
  | .error error => return .error ("Could not load " ++ older ++ ": " ++ error.message)
  | .ok olderFeature =>
      match ← loadFeature host newer with
      | .error error => return .error ("Could not load " ++ newer ++ ": " ++ error.message)
      | .ok newerFeature => return .ok (olderFeature, newerFeature)

def compareFiles (host : Host m) (older newer : String) : m Compatibility.Outcome := do
  match ← loadBoth host older newer with
  | .error reason => return .unresolvable reason
  | .ok (older, newer) =>
      return match Compatibility.compare older newer with
        | some report => .checked report
        | none => .brokenOff none

def runCompatible (host : Host m) (older newer : String) : m Nat := do
  let output := (← compareFiles host older newer).output
  host.print (paint host.coloured (if output.exitCode = 0 then .green else .red) output.message)
  return output.exitCode

def directoryOf (path : String) : String :=
  let nothing := fun piece : List Char => piece = [] || piece = ['.']
  match (Text.splitChars '/' path.toList).reverse.dropWhile nothing with
  | [] => ""
  | _ :: above =>
      match above.dropWhile nothing with
      | [] => ""
      | pieces => String.ofList (['/'].intercalate pieces.reverse)

def writeFile (host : Host m) (path text : String) : Run m Unit := do
  let directory := directoryOf path
  if directory ≠ "" then ask [] (host.createDirectories directory)
  ask [] (host.write path text)

def selectStubs (scenario : Option String) (stubs : Entries StubRecord) : List Json :=
  let selected := match scenario with
    | some name => stubs.filter fun (stub : String × StubRecord) => stub.1 = name
    | none => stubs
  selected.map fun (stub : String × StubRecord) => stub.2.toJson

def arrangeStubs (contract : String) (scenario : Option String) :
    List Json → Except (List String) Json
  -- A record alone is not put into a list.
  | [] =>
      match scenario with
      | some name => .error ["no active scenario named \"" ++ name ++ "\" in " ++ contract]
      | none => .ok (.array [])
  | [record] => .ok record
  | records => .ok (.array records)

def runGenerate (host : Host m) (contract : String) (scenario out : Option String) :
    Run m Nat := do
  let feature ← loadContract host contract
  let generated ← orEndless (← (feature.generateStubs.runWith host.answer : m _))
  let stubs ← give (generated.mapError ContractError.chain)
  let json ← give (arrangeStubs contract scenario (selectStubs scenario stubs))
  match out with
  | some path => writeFile host path json.indented
  | none => host.print json.indented
  return 0

def filesOf (host : Host m) (pattern : String) : Run m (List String) := do
  if Glob.looksLikeGlob pattern then
    let glob ← give ((Glob.read pattern).mapError fun flaw => [flaw.message])
    match ← (Glob.expand host glob : m _) with
    | [] => fail ("glob pattern matched no files: " ++ pattern)
    | files => return files
  else return [pattern]

def inputFiles (host : Host m) (patterns : List String) : Run m (List String) :=
  ExceptT.mk do
    let files ← (patterns.mapM (filesOf host)).run
    return match files with
      | .ok files => .ok files.flatten
      | .error reasons => .error ("failed to resolve input file paths" :: reasons)

def readLines (path : String) (text : String) : Except (List String) (List Json) :=
  let lines := (Text.lines text).zipIdx.filter fun line => Text.trim line.1 ≠ ""
  lines.mapM fun line => (Json.read line.1).mapError fun flaw =>
    ["failed to parse line " ++ toString (line.2 + 1) ++ " of " ++ path, flaw.message]

def readDocuments (ndjson : Bool) (path text : String) : Except (List String) (List Json) :=
  -- The documents of a file, all read before the first is used.
  if ndjson then readLines path text
  else
    match Json.read text with
    | .ok document => .ok [document]
    | .error flaw =>
        .error ["failed to parse JSON source file (" ++ path ++ ")", flaw.message]

def select (pointer : Option String) (path : String) (document : Json) :
    Except (List String) Json :=
  match pointer with
  | none => .ok document
  | some pointer =>
      match document.pointer? pointer with
      | some selected => .ok selected
      | none => .error ["json pointer " ++ pointer ++ " selects nothing in " ++ path]

def judgeFile (host : Host m) (inputs : Inputs) (judge : String → Json → Run m Bool)
    (path : String) : Run m Bool := do
  -- Does every document pass? All are judged, unless one cannot be had.
  let text ← ask ["failed to read source file " ++ path] (host.read path)
  let documents ← give (readDocuments inputs.ndjson path text)
  let verdicts ← documents.mapM fun document => do
    judge path (← give (select inputs.pointer path document))
  return verdicts.all id

def judgeInputs (host : Host m) (inputs : Inputs) (judge : String → Json → Run m Bool) :
    Run m Nat := do
  let paths ← inputFiles host inputs.patterns
  let verdicts ← paths.mapM (judgeFile host inputs judge)
  return if verdicts.all id then 0 else 1

def tick (host : Host m) : String :=
  paint host.coloured .green "✓"

def cross (host : Host m) : String :=
  paint host.coloured .red "✗"

def judgeDocument (host : Host m) (feature : Feature) (pattern : Pattern) (path : String)
    (document : Json) : Run m Bool := do
  match ← orEndless (pattern.check feature.resolver (Value.ofJson document)) with
  | .success => do
      host.print (tick host ++ " " ++ path)
      return true
  | .failure failure => do
      host.print (cross host ++ " " ++ path ++ "\n" ++ failure.report)
      return false

def runCheck (host : Host m) (contract typeName : String) (inputs : Inputs) : Run m Nat := do
  let feature ← loadContract host contract
  if feature.resolver.contains typeName then
    judgeInputs host inputs (judgeDocument host feature (.reference (Token.typeName typeName)))
  else fail ("type " ++ typeName ++ " is not declared in " ++ contract)

def judgeStub (host : Host m) (feature : Feature) (path : String) (document : Json) :
    Run m Bool := do
  match StubRecord.ofJson document with
  | .error error => do
      host.print (cross host ++ " " ++ path ++ ": " ++ error.message)
      return false
  | .ok (.kafka message) => do
      host.print (paint host.coloured .faint "-" ++ " " ++ path ++ ": kafka message on "
        ++ message.topic ++ " not checked")
      return true
  | .ok (.http request response _) =>
      match ← orEndless (feature.matchStub request response) with
      | .ok scenario => do
          host.print (tick host ++ " " ++ path ++ ": matches \"" ++ scenario.name ++ "\"")
          return true
      | .error failures => do
          host.print (cross host ++ " " ++ path ++ ": no scenario accepts this stub")
          for failure in failures do
            host.print ("\n" ++ failure.report)
          return false

def runStub (host : Host m) (contract : String) (inputs : Inputs) : Run m Nat := do
  let feature ← loadContract host contract
  judgeInputs host inputs (judgeStub host feature)

def Command.run (host : Host m) : Command → Run m Nat
  -- The comparison needs no order of its own, so the number of threads changes no answer.
  | .compatible older newer _ => (runCompatible host older newer : m _)
  | .generate contract scenario out => runGenerate host contract scenario out
  | .check contract typeName inputs => runCheck host contract typeName inputs
  | .stub contract inputs => runStub host contract inputs

def Command.exitCode (host : Host m) (command : Command) : m Nat := do
  match ← (command.run host).run with
  | .ok code => return code
  | .error reasons => do
      host.complain (paint host.coloured .red "error:" ++ " " ++ ": ".intercalate reasons)
      return 1

def usage : String :=
  "Usage: shape-compat [--verbose] <COMMAND>\n\n"
    ++ "  compatible <OLDER> <NEWER> [--threads <N>]\n"
    ++ "  generate <CONTRACT> [--scenario <NAME>] [--out <FILE>]\n"
    ++ "  match --contract <CONTRACT> --type <NAME> [--ndjson] [--json-pointer <POINTER>]"
    ++ " --input <FILE>...\n"
    ++ "  stub <CONTRACT> [--ndjson] [--json-pointer <POINTER>] --input <FILE>..."

def start (host : Host m) (environment : String → Option String) (arguments : List String) :
    m Nat := do
  match Command.read (environment "SHAPE_COMPAT_THREADS") arguments with
  | .ok command => command.exitCode host
  | .error .help => do
      host.print usage
      return 0
  | .error .version => do
      host.print "shape-compat 0.1.0"
      return 0
  | .error .mistake => do
      host.complain usage
      return 2

end Commands

end ApiContract.CommandLine
