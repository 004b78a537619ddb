import StyleTree.Decimal.Binary64

/-! The fewest decimal digits that read back as a floating point number.

    All reals nearer to a number than to its neighbours read back as that number. Among the decimals
    in that interval the shortest is taken, and of several equally short ones the nearest. -/

namespace StyleTree

/-- The decimal `digits · 10 ^ exponent`. -/
structure Decimal where
  digits : Nat
  exponent : Int
  deriving DecidableEq, Repr

namespace Decimal

def powerOfTen (e : Int) : Nat × Nat :=
  if 0 ≤ e then (Nat.pow 10 e.toNat, 1) else (1, Nat.pow 10 (-e).toNat)

def countDigits (n : Nat) : Nat := (Nat.toDigits 10 n).length

/-- The greatest `e` with `10 ^ e ≤ num / den`. -/
def floorLog10 (num den : Nat) : Int :=
  let e : Int := (countDigits num : Int) - (countDigits den : Int)
  let (p, q) := powerOfTen e
  if p * den ≤ num * q then e else e - 1

def strip (fuel : Nat) (d : Decimal) : Decimal :=
  match fuel with
  | 0 => d
  | fuel + 1 => if d.digits ≠ 0 ∧ d.digits % 10 = 0 then strip fuel ⟨d.digits / 10, d.exponent + 1⟩ else d

def leadingExponent (d : Decimal) : Int := d.exponent + (countDigits d.digits - 1 : Nat)

end Decimal

namespace Binary64

/-- The interval of the reals that read back as a number other than zero: its ends over the common
    denominator, and whether they belong to it. -/
structure Interval where
  low : Nat
  value : Nat
  high : Nat
  den : Nat
  closed : Bool

/-- Half the way to either neighbour. The neighbour below a power of two is half as far away as the
    one above. -/
def interval (x : Binary64) : Interval :=
  let (p, q) := powerOfTwo (x.exponent - 2)
  let m := 4 * x.significand
  let below := if x.significand = Nat.pow 2 (precision - 1) ∧ leastExponent < x.exponent then 1 else 2
  { low := (m - below) * p, value := m * p, high := (m + 2) * p, den := q, closed := x.significand % 2 == 0 }

/-- Whether `c · num / den` lies in the interval. -/
def Interval.holds (i : Interval) (c num den : Nat) : Bool :=
  let v := c * num * i.den
  let low := i.low * den
  let high := i.high * den
  if i.closed then low ≤ v && v ≤ high else low < v && v < high

/-- The decimal with `n` digits that is nearest to the value, if one with `n` digits lies in the
    interval. -/
def Interval.decimal? (i : Interval) (n : Nat) : Option Decimal :=
  let e := Decimal.floorLog10 i.value i.den - (n - 1 : Nat)
  let (p, q) := Decimal.powerOfTen e
  let num := i.value * q
  let den := i.den * p
  let down := num / den
  let near := roundDiv num den
  let far := if near = down then down + 1 else down
  if i.holds near p q then some ⟨near, e⟩
  else if i.holds far p q then some ⟨far, e⟩
  else none

/-- The shortest decimal that reads back as the magnitude of the number; 17 digits always do. -/
def shortest (x : Binary64) : Decimal :=
  if x.isZero then ⟨0, 0⟩
  else
    let found := (List.range 17).findSome? fun n => x.interval.decimal? (n + 1)
    (found.getD ⟨0, 0⟩).strip 17

end Binary64

end StyleTree
