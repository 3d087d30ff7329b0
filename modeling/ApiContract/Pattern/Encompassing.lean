import ApiContract.Pattern.Matching

set_option autoImplicit false

namespace ApiContract

abbrev TypeStack := List (String × String)

abbrev Comparison := StateT TypeStack Option

def Comparison.unending {α : Type} : Comparison α :=
  fun _ => none

def Comparison.lift {α : Type} (a? : Option α) : Comparison α :=
  fun stack => a?.map fun a => (a, stack)

def typeMismatch (bigger smaller : Pattern) : Verdict :=
  .fail ("Expected " ++ bigger.typeName ++ ", got " ++ smaller.typeName)

def namePair? (bigger smaller : Pattern) : Option (String × String) :=
  match bigger.name?, smaller.name? with
  | some a, some b => some (a, b)
  | _, _ => none

def guarded (pair? : Option (String × String)) (comparison : Unit → Comparison Verdict) :
    Comparison Verdict :=
  match pair? with
  | none => comparison ()
  | some pair => do
      let stack ← get
      if pair ∈ stack then return .success
      set (stack ++ [pair])
      let verdict ← comparison ()
      modify List.dropLast
      return verdict

def members? : Pattern → Option Members
  | .array elements _ => some (Members.ofElements elements)
  | .repeated inner => some ⟨[], some inner⟩
  | _ => none

def isUnconstrained : Pattern → Bool
  | .array elements _ => elements.isEmpty
  | _ => false

section

variable {m : Type → Type} [Monad m]

def keptKeys (acceptsNull : Pattern → m Verdict) (bigger smaller : List (String × Pattern)) :
    m Verdict :=
  -- A key required by the bigger side is required by the smaller, unless null does for it.
  Verdict.every (fun field => do
      if Entries.contains smaller field.1 then return .success
      match ← acceptsNull field.2 with
      | .success => return .success
      | .failure _ =>
          return (Verdict.fail ("Key " ++ field.1 ++ " was missing")).under field.1)
    (requiredFields bigger)

def sharedFields (compare : Pattern → Pattern → m Verdict)
    (bigger smaller : List (String × Pattern)) : m Verdict :=
  Verdict.every (fun field => do
      match field? smaller (bareName field.1) with
      | none => return .success
      | some (_, pattern) =>
          return (← compare field.2 pattern).under (bareName field.1))
    bigger

def compareObjects (acceptsNull : Pattern → m Verdict) (compare : Pattern → Pattern → m Verdict)
    (bigger smaller : List (String × Pattern)) : m Verdict :=
  Verdict.thenCheck (keptKeys acceptsNull bigger smaller) fun _ =>
    sharedFields compare bigger smaller

def differentLengths (these those : Members) : Verdict :=
  .fail ("Expected an array of length " ++ these.lengthText ++ ", got one of length "
    ++ those.lengthText)

def comparePosition (compare : Pattern → Pattern → m Verdict) (these those : Members) (i : Nat) :
    m Verdict :=
  match these.at? i, those.at? i with
  | some bigger, some smaller => compare bigger smaller
  | some _, none =>
      -- The smaller sequence ends here; the bigger may too once its fixed part is over.
      return if these.fixed.length ≤ i then .success else differentLengths these those
  | none, some _ => return differentLengths these those
  | none, none => return .success

def compareMembers (compare : Pattern → Pattern → m Verdict) (these those : Members) :
    m Verdict :=
  if those.isEndless && !these.isEndless then
    return .fail "Finite list is not a superset of an infinite list."
  else
    let length := max these.fixed.length those.fixed.length
    Verdict.thenCheck
      (Verdict.every
        (fun i => Verdict.under (Breadcrumb.index i) <$> comparePosition compare these those i)
        (List.range length)) fun _ =>
      match these.tail, those.tail with
      | some bigger, some smaller =>
          Verdict.under (Breadcrumb.tail length) <$> compare bigger smaller
      | _, _ => return .success

def compareSequences (compare : Pattern → Pattern → m Verdict) (bigger smaller : Pattern) :
    m Verdict :=
  if isUnconstrained bigger then return .success
  else if isUnconstrained smaller then return typeMismatch bigger smaller
  else
    match members? bigger, members? smaller with
    | some these, some those => compareMembers compare these those
    | _, _ => return typeMismatch bigger smaller

def compareUnion (compare : Pattern → Pattern → m Verdict) (bigger : Pattern)
    (alternatives : List Pattern) (smaller : Pattern) : m Verdict := do
  -- Some alternative takes the smaller pattern; a single one that is not null speaks for all.
  match ← Verdict.refusals (fun p => compare p smaller) alternatives with
  | none => return .success
  | some failures =>
      match onlyRefusal? alternatives failures with
      | some failure => return .failure failure
      | none => return typeMismatch bigger smaller

def compareResolved (compare : Resolver → Resolver → Pattern → Pattern → m Verdict)
    (accepts : Resolver → Pattern → Value → m Verdict) (these those : Resolver)
    (bigger smaller : Pattern) : m Verdict :=
  match bigger, smaller with
  | _, .anyOf alternatives =>
      Verdict.every (fun p => compare these those bigger p) alternatives
  | .anyOf alternatives, _ => compareUnion (compare these those) bigger alternatives smaller
  | .exact expected, .exact actual =>
      return if expected.same actual then .success else typeMismatch bigger smaller
  | _, .exact value => accepts these.tolerant bigger value
  | .exact _, _ => return typeMismatch bigger smaller
  | .string, .string | .number, .number | .boolean, .boolean | .null, .null | .string, .url _ =>
      return .success
  | .url a, .url b =>
      return if a.encompasses b then .success else typeMismatch bigger smaller
  | .object a _, .object b _ =>
      compareObjects (fun p => accepts these.tolerant p .null)
        (compare these.tolerant those.tolerant) a b
  | .array _ _, .array _ _ | .array _ _, .repeated _ | .repeated _, .array _ _
  | .repeated _, .repeated _ =>
      compareSequences (compare these.tolerant those.tolerant) bigger smaller
  | _, _ => return typeMismatch bigger smaller

def Pattern.compareStep (compare : Resolver → Resolver → Pattern → Pattern → m Verdict)
    (accepts : Resolver → Pattern → Value → m Verdict) (these those : Resolver)
    (bigger smaller : Pattern) : m Verdict :=
  match these.resolve bigger, those.resolve smaller with
  | .ok bigger, .ok smaller => compareResolved compare accepts these those bigger smaller
  | .error error, _ => return .fail error.message
  | .ok _, .error error => return .fail error.message

end

def Pattern.compareWithin : Nat → Resolver → Resolver → Pattern → Pattern → Comparison Verdict
  | 0, _, _, _, _ => .unending
  | fuel + 1, these, those, bigger, smaller =>
      guarded (namePair? bigger smaller) fun _ =>
        compareStep (compareWithin fuel) (fun r p v => .lift (Pattern.check r p v)) these those
          bigger smaller

def Pattern.compareBound (these those : Resolver) (bigger smaller : Pattern) : Nat :=
  -- Between two pairs put on the stack no two patterns are compared twice.
  let left := bigger.size + these.size + 2
  let right := smaller.size + those.size + 2
  let leftNames :=
    bigger.names.length + these.types.length + (Pattern.namesFields these.types).length
  let rightNames :=
    smaller.names.length + those.types.length + (Pattern.namesFields those.types).length
  (4 * left * right + 2) * (leftNames * rightNames + 2)

def Pattern.encompassesFrom (stack : TypeStack) (these those : Resolver)
    (bigger smaller : Pattern) : Option (Verdict × TypeStack) :=
  Pattern.compareWithin (compareBound these those bigger smaller) these those bigger smaller stack

def Pattern.encompasses (these those : Resolver) (bigger smaller : Pattern) : Option Verdict :=
  (encompassesFrom [] these those bigger smaller).map Prod.fst

end ApiContract
