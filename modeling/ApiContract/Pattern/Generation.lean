import ApiContract.Draw
import ApiContract.Pattern.Parsing
import ApiContract.Pattern.Reading

set_option autoImplicit false

namespace ApiContract

def randomUrl (scheme : UrlScheme) : Gen String := do
  let host := Text.asciiLower (← Gen.word)
  let path := Text.asciiLower (← Gen.word)
  return match scheme with
    | .http => "http://" ++ host ++ ".com/" ++ path
    | .https | .any => "https://" ++ host ++ ".com/" ++ path
    | .path => "/" ++ host ++ "/" ++ path

def randomNumber : Gen Value :=
  .draw .number fun n : Fin 1000 => .value (.number (.ofNat (n.val + 1) (by omega)))

def emptyUnion : ContractError :=
  .malformed "cannot generate a value from an empty union"

def anyAlternative (generate : Pattern → Gen Value) (alternatives : List Pattern)
    (last : ContractError) : Gen Value :=
  -- Alternatives in random order until one does not run into itself.
  match alternatives with
  | [] => .failure last
  | first :: others =>
      .draw (.pick others.length) fun i : Fin (others.length + 1) =>
        (generate (first :: others)[i]).orElse fun error =>
          if error.isEndlessRecursion then
            anyAlternative generate ((first :: others).eraseIdx i) error
          else .failure error
  termination_by alternatives.length
  decreasing_by
    have := i.isLt
    simp only [List.length_eraseIdx, List.length_cons]
    split <;> omega

def unresolved? (resolver : Resolver) : List Pattern → Option ContractError
  -- An alternative that cannot be resolved is an error whichever one is drawn.
  | [] => none
  | pattern :: rest =>
      match resolver.resolve pattern with
      | .ok _ => unresolved? resolver rest
      | .error error => some error

def generateFields (fill : String × Pattern → Gen (Option Value)) :
    List (String × Pattern) → Entries Value → Gen (Entries Value)
  | [], done => return done
  | field :: rest, done => do
      match ← fill field with
      | some value => generateFields fill rest (Entries.insert done (bareName field.1) value)
      | none => generateFields fill rest done

def generateElements (generate : Pattern → Gen Value) : Nat → List Pattern → Gen (List Value)
  | _, [] => return []
  | i, element :: rest => do
      let inner := match element with
        | .repeated inner => inner
        | other => other
      let value ← (generate inner).under (Breadcrumb.index i)
      return value :: (← generateElements generate (i + 1) rest)

def generateField (generate : Pattern → Gen Value) (field : String × Pattern) :
    Gen (Option Value) :=
  -- A field without a cell: an optional one is left out where it would never end.
  (some <$> generate field.2).orElse fun error =>
    if isOptional field.1 && error.isEndlessRecursion then .value none
    else .failure (.nested (bareName field.1) error)

/-- References met while they are being generated, those `entered`, have no end; a cell that is a
token starts anew. -/
def Pattern.generateWithin : Nat → Resolver → List String → Pattern → Gen Value
  | 0, _, _, _ => .unending
  | fuel + 1, resolver, entered, pattern =>
      match pattern with
      | .string => .string <$> Gen.word
      | .number => randomNumber
      | .boolean => .boolean <$> Gen.coin
      | .null => .value .null
      | .url scheme => .string <$> randomUrl scheme
      | .exact value => .value value
      | .repeated inner => do
          return .array [← generateWithin fuel resolver entered inner]
      | .reference name =>
          if name ∈ entered then .failure (.endlessRecursion name)
          else do
            let resolved ← Gen.ofContractual (resolver.resolve pattern)
            generateWithin fuel resolver (name :: entered) resolved
      | .anyOf alternatives =>
          match unresolved? resolver alternatives with
          | some error => .failure error
          | none => anyAlternative (generateWithin fuel resolver entered) alternatives emptyUnion
      | .object fields _ =>
          .object <$> generateFields (fun field =>
            match resolver.cell? (bareName field.1) with
            | some cell => some <$> Gen.under (bareName field.1) (
                if Token.isTokenText cell then do
                  let token ← Gen.ofContractual (Pattern.read cell)
                  generateWithin fuel resolver [] token
                else Gen.ofAttempt (field.2.parse resolver cell))
            | none => generateField (generateWithin fuel resolver entered) field) fields []
      | .array elements _ =>
          .array <$> generateElements (generateWithin fuel resolver entered) 0 elements

def Pattern.generateBound (resolver : Resolver) (pattern : Pattern) : Nat :=
  let row := resolver.row.getD []
  let cells := row.foldl (fun total cell => total + cell.2.length) 0
  let names := pattern.names.length + (Pattern.namesFields resolver.types).length + cells
  (row.length + 2) * (names + 2) * (pattern.size + resolver.size + cells + 4)

def Pattern.generate (resolver : Resolver) (pattern : Pattern) : Gen Value :=
  pattern.generateWithin (generateBound resolver pattern) resolver []

end ApiContract
