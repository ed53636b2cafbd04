import Packrat.Double.Basic

/-!
# Doubles written with few digits

A double is written with as few digits as let it be told from every other double, and of the numbers
with so few digits the nearest one is taken. The search follows this description: a double is a
decimal number with finitely many digits, and that number is rounded to one digit, to two, and so on
until the result reads back as the double.

## Layout

A number from `0.00001` up to sixteen digits in front of the point is written in full, with at least
one digit on either side of the point. Others have one digit in front of the point and an exponent
with its sign; they have no point if there is only one digit.

## Main results

* `readsBack_of_candidate?`: a number that the search finds reads back
-/

namespace Packrat

/-- The number `digits * 10 ^ scale`. -/
structure Digits where
  digits : Nat
  scale : Int
  deriving DecidableEq, Repr

namespace Double

-- Powers are those of natural numbers, also where the powers of a monoid are in scope.
attribute [local instance (high)] instPowNat

/-! ## Digits -/

/-- All digits of a double. -/
def exactDigits (x : Double) : Digits :=
  ⟨x.significand * 2 ^ x.exponent.toNat * 5 ^ (-x.exponent).toNat, min x.exponent 0⟩

/-- Whether this double is the one that a decimal number is rounded to. -/
def readsBack (x : Double) (d : Digits) : Bool := ofDigits d.digits d.scale == x

/-- The two numbers of `count` digits around a decimal number of `length` digits, the nearer one
first. -/
def neighbours (d : Digits) (length count : Nat) : List Digits :=
  let dropped := length - count
  let below := d.digits / 10 ^ dropped
  let near := nearest d.digits (10 ^ dropped)
  let far := if near = below then below + 1 else below
  [near, far].map (⟨·, d.scale + dropped⟩)

/-- A number of `count` digits that reads back, if there is one. -/
def candidate? (x : Double) (count : Nat) : Option Digits :=
  let exact := x.exactDigits
  (neighbours exact (Nat.repr exact.digits).length count).find? x.readsBack

theorem readsBack_of_candidate? {x : Double} {count : Nat} {d : Digits}
    (h : x.candidate? count = some d) : x.readsBack d := List.find?_some h

/-- The fewest digits that read back. Seventeen are always enough. -/
def shortest (x : Double) : Digits :=
  ((List.range' 1 17).findSome? x.candidate?).getD x.exactDigits

/-! ## Text -/

/-- Least exponent of the leading digit of a number that is written in full. -/
def minFullExponent : Int := -5

/-- Greatest exponent of the leading digit of a number that is written in full. -/
def maxFullExponent : Int := 15

/-- Characters without the zeros at their end. -/
def dropLastZeros (cs : List Char) : List Char := (cs.reverse.dropWhile (· == '0')).reverse

/-- A number of zeros. -/
def zeros (n : Nat) : List Char := List.replicate n '0'

/-- Digits with a point behind the first `n` of them, where `n` may lie outside the digits. -/
def fullText (cs : List Char) (n : Int) : List Char :=
  if n ≤ 0 then '0' :: '.' :: zeros (-n).toNat ++ cs
  else if cs.length ≤ n then cs ++ zeros (n.toNat - cs.length) ++ ['.', '0']
  else cs.take n.toNat ++ '.' :: cs.drop n.toNat

/-- Digits with a point behind the first one and an exponent. -/
def exponentText (cs : List Char) (e : Int) : List Char :=
  let front := match cs with
    | c :: d :: ds => c :: '.' :: d :: ds
    | cs => cs
  front ++ 'e' :: (if e < 0 then '-' else '+') :: (Nat.repr e.natAbs).toList

/-- The double as text. -/
def text (x : Double) : String :=
  if x.significand = 0 then "0.0"
  else
    let d := x.shortest
    let all := (Nat.repr d.digits).toList
    let cs := dropLastZeros all
    let point := all.length + d.scale
    let e := point - 1
    String.ofList <|
      if minFullExponent ≤ e ∧ e ≤ maxFullExponent then fullText cs point else exponentText cs e

end Double

end Packrat
