/-!
# Doubles

Non-negative finite numbers with 53 significant bits, as exact values: a significand times a power
of two. All arithmetic is exact arithmetic on natural numbers followed by one rounding, and
`ofQuotient` is that rounding. Exponents begin at `minExponent`, below which significands lose bits,
and have no upper end here; `isFinite` says whether a number has one of the exponents that doubles
really have.

## Main results

* `two_mul_nearest_le`, `le_two_mul_nearest`: rounding to an integer moves a quotient by a half at
  the most
* `nearest_mod_two`: of two equally near integers it takes the even one
-/

namespace Packrat

/-- The number `significand * 2 ^ exponent`. -/
structure Double where
  significand : Nat
  exponent : Int
  deriving DecidableEq, Repr

namespace Double

-- Powers are those of natural numbers, also where the powers of a monoid are in scope.
attribute [local instance (high)] instPowNat

/-! ## Rounding -/

/-- The integer nearest to a quotient, the even one of two that are equally near. -/
def nearest (num den : Nat) : Nat :=
  let below := num / den
  let rest := num % den
  if 2 * rest < den ∨ (2 * rest = den ∧ below % 2 = 0) then below else below + 1

theorem two_mul_nearest_le (num den : Nat) : 2 * (den * nearest num den) ≤ 2 * num + den := by
  have hdiv := Nat.div_add_mod num den
  simp only [nearest]
  split
  · omega
  · rw [Nat.mul_add, Nat.mul_one]
    omega

theorem le_two_mul_nearest {num den : Nat} (h : 0 < den) :
    2 * num ≤ 2 * (den * nearest num den) + den := by
  have hdiv := Nat.div_add_mod num den
  have hlt := Nat.mod_lt num h
  simp only [nearest]
  split
  · omega
  · rw [Nat.mul_add, Nat.mul_one]
    omega

theorem nearest_mod_two {num den : Nat} (h : 2 * (num % den) = den) :
    nearest num den % 2 = 0 := by
  simp only [nearest]
  split <;> omega

/-- The binary logarithm of a positive quotient, rounded down. -/
def log2Quotient (num den : Nat) : Int :=
  let e : Int := (num.log2 : Int) - den.log2
  if den * 2 ^ e.toNat ≤ num * 2 ^ (-e).toNat then e else e - 1

/-- The least exponent. -/
def minExponent : Int := -1074

/-- The greatest exponent of a double. -/
def maxExponent : Int := 971

/-- Zero. -/
def zero : Double := ⟨0, minExponent⟩

/-- The double nearest to a quotient. -/
def ofQuotient (num den : Nat) : Double :=
  if num = 0 then zero
  else
    let e := max (log2Quotient num den - 52) minExponent
    let m := nearest (num * 2 ^ (-e).toNat) (den * 2 ^ e.toNat)
    if m = 2 ^ (53 : Nat) then ⟨2 ^ (52 : Nat), e + 1⟩ else ⟨m, e⟩

/-- The double nearest to a natural number. -/
def ofNat (n : Nat) : Double := ofQuotient n 1

/-- The double nearest to `digits * 10 ^ scale`. -/
def ofDigits (digits : Nat) (scale : Int) : Double :=
  ofQuotient (digits * 10 ^ scale.toNat) (10 ^ (-scale).toNat)

/-! ## Arithmetic -/

/-- Whether the exponent is one that doubles have. -/
def isFinite (x : Double) : Bool := x.exponent ≤ maxExponent

/-- The product, rounded. -/
def mul (x y : Double) : Double :=
  let e := x.exponent + y.exponent
  ofQuotient (x.significand * y.significand * 2 ^ e.toNat) (2 ^ (-e).toNat)

/-- The quotient, rounded. -/
def div (x y : Double) : Double :=
  let e := x.exponent - y.exponent
  ofQuotient (x.significand * 2 ^ e.toNat) (y.significand * 2 ^ (-e).toNat)

end Double

end Packrat
