import ApiContract.Number.Reading
import ApiContract.Text.Blank
import ApiContract.Text.Split

set_option autoImplicit false

namespace ApiContract.CommandLine

structure Inputs where
  ndjson : Bool
  pointer : Option String
  patterns : List String
  deriving DecidableEq, Repr

inductive Command where
  | compatible (older newer : String) (threads : Nat)
  | generate (contract : String) (scenario out : Option String)
  | check (contract typeName : String) (inputs : Inputs)
  | stub (contract : String) (inputs : Inputs)
  deriving DecidableEq, Repr

inductive Refusal where
  | help
  | version
  | mistake
  deriving DecidableEq, Repr

inductive Arity where
  | flag
  | one
  | several
  deriving DecidableEq, Repr

structure OptionRule where
  name : String
  short : Option Char
  arity : Arity
  accepts : String → Bool

structure Rules where
  options : List OptionRule
  positionals : Nat

structure Given where
  options : List (String × List String)
  positionals : List String
  deriving Repr

namespace Given

def values (given : Given) (name : String) : List String :=
  given.options.flatMap fun option => if option.1 = name then option.2 else []

def isGiven (given : Given) (name : String) : Bool :=
  given.options.any fun option => option.1 = name

def value? (given : Given) (name : String) : Option String :=
  (given.values name).head?

def nothing : Given :=
  ⟨[], []⟩

def add (given : Given) (rule : OptionRule) (values : List String) : Except Refusal Given :=
  -- Only an option with several values may be repeated.
  if given.isGiven rule.name && rule.arity ≠ .several then .error .mistake
  else if values.all rule.accepts then
    .ok { given with options := given.options ++ [(rule.name, values)] }
  else .error .mistake

def addPositional (given : Given) (most : Nat) (argument : String) : Except Refusal Given :=
  -- All positional arguments are paths.
  if argument ≠ "" ∧ given.positionals.length < most then
    .ok { given with positionals := given.positionals ++ [argument] }
  else .error .mistake

end Given

def isOption (argument : String) : Bool :=
  Text.startsWith argument "-" && argument ≠ "-"

def anyText (_ : String) : Bool :=
  true

def isPath (text : String) : Bool :=
  text ≠ ""

def threads? (text : String) : Option Nat :=
  let trimmed := Text.trimChars text.toList
  let digits := match trimmed with
    | '+' :: rest => rest
    | other => other
  let n := naturalOf digits
  if digits ≠ [] ∧ digits.all isDigit ∧ 1 ≤ n ∧ n < 18446744073709551616 then some n else none

def helpRule : OptionRule := ⟨"help", some 'h', .flag, anyText⟩

def versionRule : OptionRule := ⟨"version", some 'V', .flag, anyText⟩

def verboseRule : OptionRule := ⟨"verbose", some 'v', .flag, anyText⟩

def request? (rule : OptionRule) : Option Refusal :=
  if rule.name = "help" then some .help
  else if rule.name = "version" then some .version
  else none

def takeOption (rule : OptionRule) (attached : Option String) (given : Given)
    (rest : List String) : Except Refusal (Given × List String) :=
  match rule.arity, attached with
  | .flag, some _ => .error .mistake
  | .flag, none =>
      match request? rule with
      | some refusal => .error refusal
      | none => do return (← given.add rule [], rest)
  | _, some value => do return (← given.add rule [value], rest)
  | .one, none =>
      match rest with
      | value :: rest =>
          if isOption value then .error .mistake
          else do return (← given.add rule [value], rest)
      | [] => .error .mistake
  | .several, none =>
      match rest.takeWhile fun argument => !isOption argument with
      | [] => .error .mistake
      | values => do
          return (← given.add rule values, rest.dropWhile fun argument => !isOption argument)

def splitAtEquals (cs : List Char) : String × Option String :=
  match cs.dropWhile (· ≠ '=') with
  | [] => (String.ofList cs, none)
  | _ :: value => (String.ofList (cs.takeWhile (· ≠ '=')), some (String.ofList value))

def takeShort (rules : List OptionRule) : List Char → Given → List String →
    Except Refusal (Given × List String)
  | [], given, rest => .ok (given, rest)
  | c :: more, given, rest =>
      match rules.find? fun rule => rule.short = some c with
      | none => .error .mistake
      | some rule =>
          match rule.arity, more with
          | .flag, _ => do
              let (given, rest) ← takeOption rule none given rest
              takeShort rules more given rest
          | _, [] => takeOption rule none given rest
          | _, '=' :: value => takeOption rule (some (String.ofList value)) given rest
          | _, value => takeOption rule (some (String.ofList value)) given rest

def takeOptions (rules : List OptionRule) (argument : String) (given : Given)
    (rest : List String) : Option (Except Refusal (Given × List String)) :=
  match argument.toList with
  | '-' :: '-' :: name =>
      let (name, attached) := splitAtEquals name
      match rules.find? fun rule => rule.name = name with
      | none => some (.error .mistake)
      | some rule => some (takeOption rule attached given rest)
  | '-' :: c :: more => some (takeShort rules (c :: more) given rest)
  | _ => none

def readArguments (rules : Rules) : Nat → Given → List String → Except Refusal Given
  -- Each round takes an argument at least, so their number bounds the rounds.
  | _, given, [] => .ok given
  | 0, given, _ => .ok given
  | rounds + 1, given, argument :: rest =>
      if argument = "--" then
        rest.foldlM (fun given argument => given.addPositional rules.positionals argument) given
      else
        match takeOptions rules.options argument given rest with
        | some taken => do
            let (given, rest) ← taken
            readArguments rules rounds given rest
        | none => do
            readArguments rules rounds (← given.addPositional rules.positionals argument) rest

def inputRules : List OptionRule :=
  [⟨"ndjson", none, .flag, anyText⟩, ⟨"json-pointer", none, .one, anyText⟩,
    ⟨"input", some 'i', .several, anyText⟩]

def rulesOf : String → Option Rules
  | "compatible" => some ⟨[⟨"threads", none, .one, fun text => (threads? text).isSome⟩], 2⟩
  | "generate" =>
      some ⟨[⟨"scenario", none, .one, anyText⟩, ⟨"out", some 'o', .one, isPath⟩], 1⟩
  | "match" =>
      some ⟨[⟨"contract", none, .one, isPath⟩, ⟨"type", none, .one, anyText⟩] ++ inputRules, 0⟩
  | "stub" => some ⟨inputRules, 1⟩
  | _ => none

def Given.inputs (given : Given) : Except Refusal Inputs :=
  if given.isGiven "input" then
    .ok {
      ndjson := given.isGiven "ndjson"
      pointer := given.value? "json-pointer"
      patterns := given.values "input" }
  else .error .mistake

def commandOf (threads : Option String) (name : String) (given : Given) :
    Except Refusal Command :=
  match name, given.positionals with
  | "compatible", [older, newer] =>
      match (given.value? "threads").or threads with
      | none => .ok (.compatible older newer 3)
      | some text =>
          match threads? text with
          | some n => .ok (.compatible older newer n)
          | none => .error .mistake
  | "generate", [contract] =>
      .ok (.generate contract (given.value? "scenario") (given.value? "out"))
  | "match", [] => do
      let inputs ← given.inputs
      match given.value? "contract", given.value? "type" with
      | some contract, some typeName => return .check contract typeName inputs
      | _, _ => throw .mistake
  | "stub", [contract] => do return .stub contract (← given.inputs)
  | _, _ => .error .mistake

def readLeading (given : Given) : List String → Except Refusal (String × List String)
  -- Options before the command are those of the program itself.
  | [] => .error .mistake
  | argument :: rest =>
      match takeOptions [helpRule, versionRule, verboseRule] argument given [] with
      | some taken => do
          let (given, _) ← taken
          readLeading given rest
      | none => .ok (argument, rest)

def readHelp : List String → Refusal
  | [] => .help
  | [topic] => if topic = "help" || (rulesOf topic).isSome then .help else .mistake
  | _ => .mistake

def Command.read (threads : Option String) (arguments : List String) :
    Except Refusal Command := do
  let (name, rest) ← readLeading .nothing arguments
  if name = "help" then throw (readHelp rest)
  match rulesOf name with
  | none => throw .mistake
  | some rules =>
      let rules := { rules with options := [helpRule, verboseRule] ++ rules.options }
      commandOf threads name (← readArguments rules rest.length .nothing rest)

end ApiContract.CommandLine
