/-!
# Rounding decimals to 64 bits

A number with a fraction is kept in the 64 bit binary interchange format. The value of a literal is
the format's number nearest to the decimal as written, found in exact arithmetic; a half goes to
the even neighbour, and what is too large becomes infinite.
-/

namespace ScriptCheck

/-- A number of the 64 bit binary interchange format, given by its bits. -/
structure Binary64 where
  bits : UInt64
  deriving DecidableEq, Repr

namespace Binary64

/-- The bits of infinity, the least that stand for no finite number. -/
def infinityBits : Nat := 0x7FF0000000000000

/-- The number above all finite ones. -/
def infinity : Binary64 := ⟨infinityBits.toUInt64⟩

/-- The number zero. -/
def zero : Binary64 := ⟨0⟩

/-- The integer nearest to `num / den`; a half goes to the even neighbour. -/
def roundHalfEven (num den : Nat) : Nat :=
  let quotient := num / den
  let twice := 2 * (num % den)
  if twice < den then quotient
  else if den < twice then quotient + 1
  else quotient + quotient % 2

/-- `num / den · 2 ^ (-shift)`, as a fraction of natural numbers. -/
def scaleDown (num den : Nat) (shift : Int) : Nat × Nat :=
  if 0 ≤ shift then (num, den * Nat.pow 2 shift.toNat)
  else (num * Nat.pow 2 (-shift).toNat, den)

/-- The greatest exponent of two whose power is not above `num / den`. -/
def floorLog2 (num den : Nat) : Int :=
  let guess : Int := (num.log2 : Int) - (den.log2 : Int)
  let (n, d) := scaleDown num den guess
  if n < d then guess - 1 else guess

/-- The format's number nearest to `num / den`.

With `shift` the exponent of the last place kept, the significand is the rounded quotient. It is
added to the exponent field, so that a carry out of the significand raises the exponent. -/
def ofRatio (num den : Nat) : Binary64 :=
  if num = 0 then
    zero
  else
    let shift := max (floorLog2 num den - 52) (-1074)
    let (n, d) := scaleDown num den shift
    let bits := (shift + 1074).toNat * Nat.pow 2 52 + roundHalfEven n d
    if infinityBits ≤ bits then infinity else ⟨bits.toUInt64⟩

/-- The format's number nearest to `coefficient · 10 ^ exponent`. Exponents far outside the
format's range are answered without computing the power. -/
def ofDecimal (coefficient : Nat) (exponent : Int) : Binary64 :=
  if coefficient = 0 then zero
  else if 400 < exponent then infinity
  else if exponent < -(400 + (coefficient.log2 : Int)) then zero
  else if 0 ≤ exponent then ofRatio (coefficient * Nat.pow 10 exponent.toNat) 1
  else ofRatio coefficient (Nat.pow 10 (-exponent).toNat)

/-- The sixteen hexadecimal digits of the bits. -/
def hex (x : Binary64) : String :=
  let digits := Nat.toDigits 16 x.bits.toNat
  String.ofList (List.replicate (16 - digits.length) '0' ++ digits)

example : (ofDecimal 1 (-1)).hex = "3fb999999999999a" := by decide +kernel
example : (ofDecimal 5 (-324)).hex = "0000000000000001" := by decide +kernel
example : (ofDecimal 9007199254740993 0).hex = "4340000000000000" := by decide +kernel
example : (ofDecimal 17976931348623159 292).hex = "7ff0000000000000" := by decide +kernel

end Binary64

end ScriptCheck
