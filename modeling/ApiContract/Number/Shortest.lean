import ApiContract.Number.Double

set_option autoImplicit false

namespace ApiContract.Double

def lowest (d : Double) : Nat :=
  -- Quarter units make both ends of the rounding interval whole numbers.
  let below := if d.fraction.val = 0 ∧ 1 < d.exponent.val then d.spacing else 2 * d.spacing
  4 * d.units - below

def highest (d : Double) : Nat :=
  4 * d.units + 2 * d.spacing

/-- Is `c * 10^k` rounded to `d`? The ends of the interval go to the even significand. -/
def admits (d : Double) (c : Nat) (k : Int) : Bool :=
  let point := c * Nat.pow 10 k.toNat * Nat.pow 2 1076
  let unit := Nat.pow 10 (-k).toNat
  if d.significand % 2 = 0 then d.lowest * unit ≤ point && point ≤ d.highest * unit
  else d.lowest * unit < point && point < d.highest * unit

def onGrid? (d : Double) (k : Int) : Option Nat :=
  let num := 4 * d.units * Nat.pow 10 (-k).toNat
  let den := Nat.pow 10 k.toNat * Nat.pow 2 1076
  let low := num / den
  let nearest := roundHalfEven num den
  if d.admits nearest k then some nearest
  else if d.admits low k then some low
  else if d.admits (low + 1) k then some (low + 1)
  else none

def coarsest : Nat → Int → Double → Nat × Int
  | 0, k, _ => (0, k)
  | steps + 1, k, d =>
      match d.onGrid? k with
      | some c => (c, k)
      | none => coarsest steps (k - 1) d

-- The fewest digits that no other double is nearer to, and of those the nearest.
def shortest (d : Double) : Nat × Int :=
  if d.isZero then (0, 0) else coarsest 640 309 d

def digitsText (digits : List Char) (k : Int) : List Char :=
  let count := digits.length
  let leading := (count : Int) - 1 + k
  if -5 ≤ leading ∧ leading < 16 then
    if 0 ≤ k then digits ++ List.replicate k.toNat '0' ++ ['.', '0']
    else if 0 ≤ leading then
      digits.take (leading.toNat + 1) ++ ['.'] ++ digits.drop (leading.toNat + 1)
    else ['0', '.'] ++ List.replicate (-leading - 1).toNat '0' ++ digits
  else
    let mantissa := match digits with
      | [] => []
      | [c] => [c]
      | c :: rest => c :: '.' :: rest
    let sign := if leading < 0 then '-' else '+'
    mantissa ++ ['e', sign] ++ Nat.toDigits 10 leading.natAbs

def text (d : Double) : String :=
  let (c, k) := d.shortest
  let body := digitsText (Nat.toDigits 10 c) k
  String.ofList (if d.negative then '-' :: body else body)

end ApiContract.Double
