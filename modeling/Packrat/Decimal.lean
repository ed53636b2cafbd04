import Packrat.Double.Basic

/-!
# Decimal numbers

A decimal number is read into a double in steps, and what it is read as is a question about these
steps rather than about the number:

* the leading digits, as far as they fit into 64 bits, become the significand, and the digits left
  out in front of the point only count as powers of ten;
* the significand is rounded to a double, and so are the powers of ten that it is multiplied by or
  divided by;
* each product and each quotient is rounded again.

So the outcome may be another double than the nearest one. A product without a finite double puts
the number out of range; a quotient may well be zero.
-/

namespace Packrat

/-- A decimal number without its sign. -/
structure Decimal where
  /-- Digits in front of the point. -/
  whole : List Char
  /-- Digits behind the point, if there is one. -/
  fraction : Option (List Char) := none
  /-- The exponent, if there is one. -/
  exponent : Option Int := none

namespace Decimal

-- Powers are those of natural numbers, also where the powers of a monoid are in scope.
attribute [local instance (high)] instPowNat

/-! ## Digits -/

/-- The number that a decimal digit stands for. -/
def digitValue (c : Char) : Nat := c.toNat - 0x30

/-- The number that digits stand for. -/
def natOf (digits : List Char) : Nat := digits.foldl (fun n c => 10 * n + digitValue c) 0

/-- Appends digits to a number as long as it stays below `bound`, and counts them. -/
def appendDigits (bound n : Nat) : List Char → Nat × Nat
  | [] => (n, 0)
  | c :: cs =>
    let longer := 10 * n + digitValue c
    if longer < bound then
      let (m, count) := appendDigits bound longer cs
      (m, count + 1)
    else (n, 0)

/-- Whether the number is zero. -/
def isZero (d : Decimal) : Bool := (d.whole ++ d.fraction.getD []).all (· == '0')

/-! ## As integers -/

/-- The integer of 64 bits, with or without a sign, that the number is written as. A zero with a
sign is no integer. -/
def toInteger? (negative : Bool) (d : Decimal) : Option Int :=
  if d.fraction.isSome || d.exponent.isSome then none
  else
    let n := natOf d.whole
    if negative then if 0 < n ∧ n ≤ 2 ^ (63 : Nat) then some (-n) else none
    else if n < 2 ^ (64 : Nat) then some n
    else none

/-! ## As doubles -/

/-- The significand and the power of ten that it is multiplied by. -/
def scaled (d : Decimal) : Nat × Int :=
  let (front, taken) := appendDigits (2 ^ (64 : Nat)) 0 d.whole
  let (significand, behind) := appendDigits (2 ^ (64 : Nat)) front (d.fraction.getD [])
  (significand, d.exponent.getD 0 + (d.whole.length - taken : Nat) - behind)

/-- The greatest power of ten that is a finite double. -/
def maxPower : Nat := 308

/-- The double of a power of ten. -/
def power (n : Nat) : Double := .ofNat (10 ^ n)

/-- Divides by a power of ten, in several steps if it is none of a finite double. -/
def scaleDown (x : Double) (n : Nat) : Double :=
  if n ≤ maxPower then x.div (power n)
  else if x.significand = 0 then x
  else scaleDown (x.div (power maxPower)) (n - maxPower)
termination_by n
decreasing_by
  have : maxPower = 308 := rfl
  omega

/-- Multiplies by a power of ten, if the product is a finite double. -/
def scaleUp? (x : Double) (n : Nat) : Option Double :=
  if x.significand = 0 then some x
  else if maxPower < n then none
  else
    let product := x.mul (power n)
    if product.isFinite then some product else none

/-- The double that the number is read as, unless it is out of range. -/
def toDouble? (d : Decimal) : Option Double :=
  let (significand, scale) := d.scaled
  let x := Double.ofNat significand
  if scale < 0 then some (scaleDown x (-scale).toNat) else scaleUp? x scale.toNat

end Decimal

end Packrat
