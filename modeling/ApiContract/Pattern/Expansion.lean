import ApiContract.Pattern.Encompassing
import ApiContract.Pattern.Parsing
import ApiContract.Pattern.Reading

set_option autoImplicit false

namespace ApiContract

def combinations {α : Type} : List (List α) → List (List α)
  | [] => [[]]
  | options :: rest => options.flatMap fun a => (combinations rest).map fun more => a :: more

def distinctVariants (variants : List Pattern) : List Pattern :=
  variants.foldl (fun found variant =>
    if found.any fun pattern => pattern.same variant then found else found ++ [variant]) []

def allScalar (scalar : Pattern → Option Bool) : List Pattern → Option Bool
  | [] => some true
  | pattern :: rest => do
      if ← scalar pattern then allScalar scalar rest else return false

def Pattern.isScalarWithin : Nat → Resolver → Pattern → Option Bool
  | 0, _, _ => none
  | fuel + 1, resolver, pattern =>
      match pattern with
      | .anyOf alternatives => allScalar (isScalarWithin fuel resolver) alternatives
      | .reference _ =>
          match resolver.resolve pattern with
          | .ok resolved => isScalarWithin fuel resolver resolved
          | .error _ => some false
      | .repeated _ | .object _ _ | .array _ _ => some false
      | _ => some true

def Pattern.isScalar (resolver : Resolver) (pattern : Pattern) : Option Bool :=
  -- A reference that cannot be resolved is no scalar.
  pattern.isScalarWithin (pattern.size + resolver.size + 2) resolver

def invalidExample (key message : String) : ContractError :=
  .nested key (.invalidExample key message)

def tokenVariants (expand : Pattern → Attempt (List Pattern)) (resolver : Resolver)
    (key cell : String) (declared : Pattern) : Attempt (List Pattern) := do
  -- A cell that is a token has to fit the declared type and is expanded itself.
  let token ← Attempt.ofContractual
    ((Pattern.read cell).mapError fun e => invalidExample key e.message)
  match ← Attempt.ofOption
      (Pattern.encompasses resolver.tolerant resolver.tolerant declared token) with
  | .failure failure => throw (invalidExample key failure.report)
  | .success => Attempt.under key (expand token)

def literalVariant (resolver : Resolver) (key cell : String) (declared : Pattern) :
    Attempt (List Pattern) := do
  -- Any other cell has to be the text of a value that fits the declared type.
  let value ← Attempt.mapError (fun e => invalidExample key e.message)
    (declared.parse resolver cell)
  match ← Attempt.ofOption (declared.check resolver.tolerant value) with
  | .failure failure => throw (invalidExample key failure.report)
  | .success => return [.exact value]

def cellVariants (expand : Pattern → Attempt (List Pattern)) (resolver : Resolver)
    (key cell : String) (declared : Pattern) : Attempt (List Pattern) :=
  if Token.isTokenText cell then tokenVariants expand resolver key cell declared
  else literalVariant resolver key cell declared

abbrev FieldChoice := Option (String × Pattern)

def fieldChoices (expand : Pattern → Attempt (List Pattern)) (resolver : Resolver) (row : Row)
    (field : String × Pattern) : Attempt (List FieldChoice) := do
  let name := bareName field.1
  let variants ← match Entries.get? row name with
    | some cell => cellVariants expand resolver name cell field.2
    | none => Attempt.under name (expand field.2)
  let included := variants.map fun variant => some (name, variant)
  if !isOptional field.1 || Entries.contains row name then return included
  match resolver.combinations with
  | .exhaustive => return none :: included
  | .compositeOnly =>
      if ← Attempt.ofOption (field.2.isScalar resolver) then return [none]
      else return none :: included

def elementChoices (expand : Pattern → Attempt (List Pattern)) :
    Nat → List Pattern → Attempt (List (List Pattern))
  | _, [] => return []
  | i, element :: rest => do
      let variants ← Attempt.under (Breadcrumb.index i) (expand element)
      return variants :: (← elementChoices expand (i + 1) rest)

/-- One level of an expansion, `expand` for what the pattern holds or refers to. References met
while they are being expanded, those `entered`, stay as they are. -/
def Pattern.expandStep (expand : List String → Pattern → Attempt (List Pattern))
    (resolver : Resolver) (row : Row) (entered : List String) (pattern : Pattern) :
    Attempt (List Pattern) :=
  match pattern with
  | .repeated inner => do
      return (← expand entered inner).map .repeated
  | .reference name =>
      if name ∈ entered then return [pattern]
      else do
        let resolved ← Attempt.ofContractual (resolver.resolve pattern)
        expand (name :: entered) resolved
  | .anyOf alternatives => do
      let variants ← alternatives.mapM (expand entered)
      return distinctVariants variants.flatten
  | .object fields traits => do
      let choices ← fields.mapM (fieldChoices (expand entered) resolver row)
      return (combinations choices).map fun chosen =>
        .object (Entries.ofList (chosen.filterMap id)) traits
  | .array elements knownAs => do
      let choices ← elementChoices (expand entered) 0 elements
      return (combinations choices).map fun chosen => .array chosen knownAs
  | scalar => return [scalar]

def Pattern.expandWithin :
    Nat → Resolver → Row → List String → Pattern → Attempt (List Pattern)
  | 0, _, _, _, _ => Attempt.unending
  | fuel + 1, resolver, row, entered, pattern =>
      expandStep (expandWithin fuel resolver row) resolver row entered pattern

def Pattern.expandBound (resolver : Resolver) (row : Row) (pattern : Pattern) : Nat :=
  -- Between two references that are entered, expansion descends into one pattern or one cell.
  let cells := row.foldl (fun total cell => total + cell.2.length) 0
  let names := pattern.names.length + (Pattern.namesFields resolver.types).length + cells
  (names + 2) * (pattern.size + resolver.size + cells + 4)

def Pattern.expand (resolver : Resolver) (row : Row) (pattern : Pattern) :
    Attempt (List Pattern) :=
  pattern.expandWithin (expandBound resolver row pattern) resolver row []

end ApiContract
