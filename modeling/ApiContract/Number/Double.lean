set_option autoImplicit false

namespace ApiContract

structure Double where
  negative : Bool
  exponent : Fin 2047
  fraction : Fin 4503599627370496
  deriving DecidableEq, Repr

namespace Double

def zero (negative : Bool) : Double :=
  ⟨negative, 0, 0⟩

def significand (d : Double) : Nat :=
  -- Exponents 0 and 1 have the same spacing; only 0 lacks the leading bit.
  if d.exponent.val = 0 then d.fraction.val else 4503599627370496 + d.fraction.val

def spacing (d : Double) : Nat :=
  Nat.pow 2 (d.exponent.val - 1)

-- In units of 2^-1074 every double is a whole number.
def units (d : Double) : Nat :=
  d.significand * d.spacing

def signedUnits (d : Double) : Int :=
  if d.negative then - (d.units : Int) else d.units

def isZero (d : Double) : Bool :=
  d.units = 0

def sameNumber (a b : Double) : Bool :=
  a.signedUnits = b.signedUnits

def roundHalfEven (num den : Nat) : Nat :=
  let q := num / den
  let r := num % den
  if 2 * r < den then q
  else if den < 2 * r then q + 1
  else if q % 2 = 0 then q else q + 1

/-- A significand of at most 53 bits at spacing `2 ^ shift`; too large an exponent has no double. -/
def assemble (negative : Bool) (m shift : Nat) : Option Double :=
  if m < 4503599627370496 then
    some ⟨negative, 0, Fin.ofNat 4503599627370496 m⟩
  else if h : shift + 1 < 2047 then
    some ⟨negative, ⟨shift + 1, h⟩, Fin.ofNat 4503599627370496 (m - 4503599627370496)⟩
  else none

def ofRatio (negative : Bool) (num den : Nat) : Option Double :=
  -- The double nearest to `num / den`, ties to the even significand; none beyond the largest
  -- double.
  let scaled := num * Nat.pow 2 1074
  let shift := (scaled / den).log2 - 52
  let m := roundHalfEven scaled (den * Nat.pow 2 shift)
  if m = 9007199254740992 then assemble negative 4503599627370496 (shift + 1)
  else assemble negative m shift

def ofInt (i : Int) : Option Double :=
  ofRatio (i < 0) i.natAbs 1

def powerOfTen (n : Nat) : Option Double :=
  if n ≤ 308 then ofRatio false (Nat.pow 10 n) 1 else none

def mul (a b : Double) : Option Double :=
  ofRatio (a.negative != b.negative) (a.units * b.units) (Nat.pow 2 2148)

def div (a b : Double) : Option Double :=
  if b.isZero then none else ofRatio (a.negative != b.negative) a.units b.units

end Double

end ApiContract
