import ApiContract.Number.Shortest

set_option autoImplicit false

namespace ApiContract

def smallestWhole : Int := -9223372036854775808

def largestWhole : Int := 18446744073709551615

structure Whole where
  val : Int
  inRange : smallestWhole ≤ val ∧ val ≤ largestWhole
  deriving DecidableEq

instance : Repr Whole where
  reprPrec n p := reprPrec n.val p

def Whole.ofInt? (i : Int) : Option Whole :=
  if h : smallestWhole ≤ i ∧ i ≤ largestWhole then some ⟨i, h⟩ else none

inductive Number where
  | whole (n : Whole)
  | double (d : Double)
  deriving DecidableEq, Repr

namespace Number

def ofNat (n : Nat) (h : n ≤ 18446744073709551615 := by decide) : Number :=
  .whole ⟨n, by simp only [smallestWhole, largestWhole]; omega⟩

/-- A whole number beside a double is rounded to one; every whole number here is near a double. -/
def toDouble? : Number → Option Double
  | .whole n => Double.ofInt n.val
  | .double d => some d

def same : Number → Number → Bool
  | .whole a, .whole b => a.val = b.val
  | a, b =>
      match a.toDouble?, b.toDouble? with
      | some x, some y => x.sameNumber y
      | _, _ => false

def isWhole : Number → Bool
  | .whole _ => true
  | .double _ => false

def text : Number → String
  | .whole n => String.ofList (if n.val < 0 then '-' :: Nat.toDigits 10 n.val.natAbs
      else Nat.toDigits 10 n.val.natAbs)
  | .double d => d.text

end Number

end ApiContract
