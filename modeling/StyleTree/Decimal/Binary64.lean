/-! Binary floating point numbers of 64 bits, held exactly: a sign, a significand and a power of two.
    Arithmetic is exact arithmetic on natural numbers followed by one rounding. -/

namespace StyleTree

/-- The finite number `± significand · 2 ^ exponent`. Built by `Binary64.ofRatio?`, the significand
    has 53 bits, or fewer at the least exponent, so that equal numbers of one sign are equal data. -/
structure Binary64 where
  negative : Bool
  significand : Nat
  exponent : Int
  deriving DecidableEq, Repr

namespace Binary64

/-- The exponent of the numbers next to zero. -/
def leastExponent : Int := -1074

/-- The exponent of the largest numbers. -/
def greatestExponent : Int := 971

def precision : Nat := 53

/-- The numerator and denominator of `2 ^ e`. -/
def powerOfTwo (e : Int) : Nat × Nat :=
  if 0 ≤ e then (Nat.pow 2 e.toNat, 1) else (1, Nat.pow 2 (-e).toNat)

/-- A quotient rounded to the nearest natural number, a half to the even neighbour. -/
def roundDiv (num den : Nat) : Nat :=
  let q := num / den
  let r := num % den
  if 2 * r < den then q
  else if 2 * r = den then q + q % 2
  else q + 1

/-- The greatest `e` with `2 ^ e ≤ num / den`. -/
def floorLog2 (num den : Nat) : Int :=
  let e : Int := (Nat.log2 num : Int) - (Nat.log2 den : Int)
  let (p, q) := powerOfTwo e
  if p * den ≤ num * q then e else e - 1

def zero (negative : Bool) : Binary64 := ⟨negative, 0, leastExponent⟩

def isZero (x : Binary64) : Bool := x.significand == 0

/-- The number nearest to `num / den`, of two the one with the even significand; `none` where that
    is beyond the largest number. -/
def ofRatio? (negative : Bool) (num den : Nat) : Option Binary64 :=
  if num = 0 then some (zero negative)
  else
    let e := max (floorLog2 num den - (precision - 1)) leastExponent
    let (p, q) := powerOfTwo e
    let m := roundDiv (num * q) (den * p)
    let (m, e) := if m = Nat.pow 2 precision then (m / 2, e + 1) else (m, e)
    if e ≤ greatestExponent then some ⟨negative, m, e⟩ else none

def ratio (x : Binary64) : Nat × Nat :=
  let (p, q) := powerOfTwo x.exponent
  (x.significand * p, q)

def mulNat? (x : Binary64) (n : Nat) : Option Binary64 :=
  let (num, den) := x.ratio
  ofRatio? x.negative (num * n) den

def divNat? (x : Binary64) (n : Nat) : Option Binary64 :=
  let (num, den) := x.ratio
  ofRatio? x.negative num (den * n)

/-- Equality of the numbers, for which the two zeros are one. -/
def eqv (x y : Binary64) : Bool :=
  x == y || (x.isZero && y.isZero)

end Binary64

end StyleTree
