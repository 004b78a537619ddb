import StyleTree.Decimal.Shortest

/-! Numbers of JSON texts. A literal without fraction and exponent stays an integer as long as it fits
    in 64 bits, signed or unsigned; every other literal is a floating point number. Integers and
    floating point numbers are different values. -/

namespace StyleTree

inductive Number where
  | int (value : Int)
  | float (value : Binary64)
  deriving DecidableEq, Repr

namespace Number

/-- Equality of numbers of one sort; the two floating point zeros are equal. -/
def eqv : Number → Number → Bool
  | .int a, .int b => a == b
  | .float a, .float b => a.eqv b
  | _, _ => false

end Number

/-! ### Text -/

namespace Binary64

/-- How a floating point number is written: positionally where the exponent of the first digit lies
    between the two bounds, and with a signed exponent elsewhere. -/
structure Layout where
  leastPositional : Int
  greatestPositional : Int

/-- From `0.00001` to `1000000000000000.0` numbers are positional. -/
def layout : Layout := ⟨-5, 15⟩

/-- The digits with a point behind the first `n` of them, and a zero where one side has no digit. -/
def pointed (digits : List Char) (n : Int) : List Char :=
  if n ≤ 0 then '0' :: '.' :: (List.replicate (-n).toNat '0' ++ digits)
  else if (digits.length : Int) ≤ n then digits ++ List.replicate (n.toNat - digits.length) '0' ++ ['.', '0']
  else digits.take n.toNat ++ '.' :: digits.drop n.toNat

/-- The digits with a point behind the first, if there are more, and a signed exponent. -/
def scientific (digits : List Char) (e : Int) : List Char :=
  let mantissa := match digits with
    | [] => []
    | [d] => [d]
    | d :: rest => d :: '.' :: rest
  mantissa ++ 'e' :: (if 0 ≤ e then '+' else '-') :: Nat.toDigits 10 e.natAbs

/-- The shortest digits that read back, in the given layout. -/
def textIn (layout : Layout) (x : Binary64) : String :=
  let d := x.shortest
  let digits := Nat.toDigits 10 d.digits
  let e := d.leadingExponent
  let body :=
    if layout.leastPositional ≤ e && e ≤ layout.greatestPositional then pointed digits (e + 1)
    else scientific digits e
  String.ofList (if x.negative then '-' :: body else body)

def text (x : Binary64) : String := x.textIn layout

end Binary64

def Number.text : Number → String
  | .int n => if n < 0 then "-" ++ String.ofList (Nat.toDigits 10 n.natAbs) else String.ofList (Nat.toDigits 10 n.natAbs)
  | .float x => x.text

/-! ### Literals -/

namespace Number

structure Literal where
  negative : Bool
  whole : List Nat
  fraction : Option (List Nat)
  exponent : Option (Bool × List Nat)

def digit (c : Char) : Nat := c.toNat - '0'.toNat

/-- The digits in front and what follows them. -/
def takeDigits (cs : List Char) : List Nat × List Char :=
  ((cs.takeWhile Char.isDigit).map digit, cs.dropWhile Char.isDigit)

/-- An exponent: a sign if there is one, and at least one digit. -/
def readExponent? (cs : List Char) : Option (Bool × List Nat) :=
  let (negative, cs) := match cs with
    | '+' :: rest => (false, rest)
    | '-' :: rest => (true, rest)
    | rest => (false, rest)
  match takeDigits cs with
  | (d :: ds, []) => some (negative, d :: ds)
  | _ => none

/-- The exponent at the end of a literal, if there is one. -/
def readTail? (cs : List Char) : Option (Option (Bool × List Nat)) :=
  match cs with
  | [] => some none
  | c :: rest => if c = 'e' ∨ c = 'E' then (readExponent? rest).map some else none

/-- The parts of a literal: no zero in front of other digits, at least one digit on either side of a
    point and in an exponent. -/
def Literal.read? (cs : List Char) : Option Literal := do
  let (negative, cs) := match cs with
    | '-' :: rest => (true, rest)
    | rest => (false, rest)
  let (whole, cs) := takeDigits cs
  guard (whole ≠ [] ∧ (whole.head? = some 0 → whole = [0]))
  match cs with
  | '.' :: rest =>
    let (fraction, cs) := takeDigits rest
    guard (fraction ≠ [])
    let exponent ← readTail? cs
    return ⟨negative, whole, some fraction, exponent⟩
  | cs =>
    let exponent ← readTail? cs
    return ⟨negative, whole, none, exponent⟩

def significandLimit : Nat := 0xffffffffffffffff

/-- The significand with as many of the digits behind it as fit, and how many they are. -/
def absorb (significand : Nat) : List Nat → Nat × Nat
  | [] => (significand, 0)
  | d :: ds =>
    if significand * 10 + d ≤ significandLimit then
      let (s, n) := absorb (significand * 10 + d) ds
      (s, n + 1)
    else (significand, 0)

/-- The floating point number nearest to `10 ^ k`, for `k` up to 308. -/
def powerOfTen (k : Nat) : Nat :=
  let (num, den) := ((Binary64.ofRatio? false (Nat.pow 10 k) 1).getD (Binary64.zero false)).ratio
  num / den

/-- `x · 10 ^ e`, by one product or by quotients with at most 308 places each; `none` beyond the
    largest number. -/
def scale? (x : Binary64) (e : Int) : Option Binary64 :=
  if x.isZero then some x
  else if 0 ≤ e then if e ≤ 308 then x.mulNat? (powerOfTen e.toNat) else none
  else if -308 ≤ e then x.divNat? (powerOfTen (-e).toNat)
  else do scale? (← x.divNat? (powerOfTen 308)) (e + 308)
termination_by (-e).toNat

/-- The greatest exponent that is evaluated: 31 bits, all set. -/
def exponentLimit : Nat := 0x7fffffff

/-- The number a literal stands for. Its significand holds the leading digits that fit in 64 bits;
    further digits of the whole part only count as places, those of the fraction are left out. -/
def ofLiteral? (l : Literal) : Option Number := do
  let (s, n) := absorb 0 l.whole
  if n = l.whole.length ∧ l.fraction = none ∧ l.exponent = none ∧
      (l.negative → 0 < s ∧ s ≤ 0x8000000000000000) then
    return .int (if l.negative then -(s : Int) else s)
  let places : Int := (l.whole.length - n : Nat)
  let (s, n) := absorb s (l.fraction.getD [])
  let places := places - n
  let unscaled ← Binary64.ofRatio? l.negative s 1
  match l.exponent with
  | none => return .float (← scale? unscaled places)
  | some (negative, ds) =>
    let e := ds.foldl (fun e d => e * 10 + d) 0
    if e ≤ exponentLimit then
      return .float (← scale? unscaled (if negative then places - e else places + e))
    else if negative ∨ s = 0 then return .float (Binary64.zero l.negative)
    else none

def read? (cs : List Char) : Option Number := do ofLiteral? (← Literal.read? cs)

end Number

end StyleTree
