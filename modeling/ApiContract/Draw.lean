import ApiContract.ContractError

set_option autoImplicit false

namespace ApiContract

inductive Draw where
  | word
  | number
  | coin
  | pick (others : Nat)
  deriving DecidableEq, Repr

/-- Five letters, a number from 1 to 1000 less one, either side, one beside so many others. -/
def Draw.Answer : Draw → Type
  | .word => Vector (Fin 26) 5
  | .number => Fin 1000
  | .coin => Bool
  | .pick others => Fin (others + 1)

/-- One answer stands for all words and one for all numbers; every other answer is listed. -/
def Draw.examples : (d : Draw) → List d.Answer
  | .word => [Vector.ofFn fun i => ⟨i.val, by omega⟩]
  | .number => [(499 : Fin 1000)]
  | .coin => [true, false]
  | .pick others => List.finRange (others + 1)

def capitalLetters (letters : Vector (Fin 26) 5) : String :=
  String.ofList (letters.toList.map fun i => Char.ofNat ('A'.toNat + i.val))

-- A run takes its answers from anywhere, so what holds of all runs holds of the whole tree.
inductive Gen (α : Type) where
  | value (a : α)
  | failure (error : ContractError)
  | unending
  | draw (d : Draw) (next : d.Answer → Gen α)

namespace Gen

variable {α β : Type}

def bind (gen : Gen α) (f : α → Gen β) : Gen β :=
  match gen with
  | .value a => f a
  | .failure error => .failure error
  | .unending => .unending
  | .draw d next => .draw d fun answer => bind (next answer) f

instance : Monad Gen where
  pure := .value
  bind := bind

def orElse (gen : Gen α) (handler : ContractError → Gen α) : Gen α :=
  match gen with
  | .value a => .value a
  | .failure error => handler error
  | .unending => .unending
  | .draw d next => .draw d fun answer => orElse (next answer) handler

def under (crumb : String) (gen : Gen α) : Gen α :=
  gen.orElse fun error => .failure (.nested crumb error)

def ofContractual : Contractual α → Gen α
  | .ok a => .value a
  | .error error => .failure error

def ofAttempt (attempt : Attempt α) : Gen α :=
  match (attempt : Option (Contractual α)) with
  | none => .unending
  | some result => ofContractual result

def word : Gen String :=
  .draw .word fun letters => .value (capitalLetters letters)

def number : Gen Nat :=
  .draw .number fun n : Fin 1000 => .value (n.val + 1)

def coin : Gen Bool :=
  .draw .coin .value

def runWith {m : Type → Type} [Monad m] (answer : (d : Draw) → m d.Answer) :
    Gen α → m (Option (Contractual α))
  | .value a => pure (some (.ok a))
  | .failure error => pure (some (.error error))
  | .unending => pure none
  | .draw d next => do runWith answer (next (← answer d))

/-- Every result a run can have satisfies `P`; a run without end has none. -/
def Always (P : Contractual α → Prop) : Gen α → Prop
  | .value a => P (.ok a)
  | .failure error => P (.error error)
  | .unending => True
  | .draw _ next => ∀ answer, Always P (next answer)

def Ends : Gen α → Prop
  | .value _ => True
  | .failure _ => True
  | .unending => False
  | .draw _ next => ∀ answer, Ends (next answer)

def results : Gen α → List (Contractual α)
  | .value a => [.ok a]
  | .failure error => [.error error]
  | .unending => []
  | .draw d next => d.examples.flatMap fun answer => results (next answer)

end Gen

end ApiContract
