import ApiContract.Number.Basic

set_option autoImplicit false

namespace ApiContract

def isDigit (c : Char) : Bool :=
  '0' ≤ c && c ≤ '9'

def digitValue (c : Char) : Nat :=
  c.toNat - 48

def naturalOf (digits : List Char) : Nat :=
  digits.foldl (fun n c => 10 * n + digitValue c) 0

-- Digits are taken while they fit 64 bits; the others come back.
def absorb : Nat → List Char → Nat × List Char
  | n, [] => (n, [])
  | n, c :: rest =>
      let next := 10 * n + digitValue c
      if next < 18446744073709551616 then absorb next rest else (n, c :: rest)

def divByPower (d : Double) (n : Nat) : Option Double :=
  (Double.powerOfTen n).bind d.div

def scaleDown (d : Double) (n : Nat) : Option Double :=
  -- Divides by `10^n`, 308 powers at a time; zero stays zero.
  if h : n ≤ 308 then divByPower d n
  else if d.isZero then some d
  else (divByPower d 308).bind fun smaller => scaleDown smaller (n - 308)
  termination_by n
  decreasing_by omega

def scaleUp (d : Double) (n : Nat) : Option Double :=
  if n ≤ 308 then (Double.powerOfTen n).bind d.mul
  else if d.isZero then some d
  else none

def Double.ofDecimal (negative : Bool) (significand : Nat) (exponent : Int) : Option Double := do
  let whole ← Double.ofRatio false significand 1
  let d ← if exponent < 0 then scaleDown whole exponent.natAbs else scaleUp whole exponent.natAbs
  return { d with negative }

structure NumberParts where
  negative : Bool
  whole : List Char
  fraction : Option (List Char)
  exponent : Option Int

def NumberParts.number? (parts : NumberParts) : Option Number :=
  let (significand, unused) := absorb 0 parts.whole
  match parts.fraction, parts.exponent, unused with
  | none, none, [] =>
      let i : Int := if parts.negative then -(significand : Int) else significand
      if parts.negative && significand = 0 then some (.double (Double.zero true))
      else
        match Whole.ofInt? i with
        | some n => some (.whole n)
        | none => (Double.ofDecimal parts.negative significand 0).map .double
  | fraction, exponent, unused =>
      let (significand', dropped) := absorb significand (fraction.getD [])
      let taken := (fraction.getD []).length - dropped.length
      let power := (unused.length : Int) - taken + exponent.getD 0
      (Double.ofDecimal parts.negative significand' power).map .double

end ApiContract
