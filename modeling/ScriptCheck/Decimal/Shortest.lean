import ScriptCheck.Decimal.Binary64

/-!
# The shortest decimal of a binary number

A finite number is shown by the fewest decimal digits that read back as the same number, the
nearest such decimal if there are several. A decimal reads back exactly if it lies in the interval
of reals that round to the number, so it is enough to look, from coarse to fine, for a power of
ten with a multiple in that interval. The digits are written positionally, however many zeros that
takes.
-/

namespace ScriptCheck

namespace Binary64

/-- Significand and exponent of two of a finite number. -/
def parts (x : Binary64) : Nat × Int :=
  let field : Nat := x.bits.toNat / Nat.pow 2 52
  let fraction : Nat := x.bits.toNat % Nat.pow 2 52
  if field = 0 then (fraction, -1074) else (fraction + Nat.pow 2 52, (field : Int) - 1075)

/-- The reals that round to a number, as multiples of a quarter of its last place: lower end, value
and upper end. Below a power of two the neighbours stand closer together. -/
def interval (x : Binary64) : Nat × Nat × Nat :=
  let (significand, exponent) := x.parts
  let closer := significand = Nat.pow 2 52 && -1074 < exponent
  (4 * significand - (if closer then 1 else 2), 4 * significand, 4 * significand + 2)

/-- `a · 2 ^ shift` compared with `b · 10 ^ power`, as two natural numbers to compare. -/
def balance (a : Nat) (shift : Int) (b : Nat) (power : Int) : Nat × Nat :=
  (a * Nat.pow 2 shift.toNat * Nat.pow 10 (-power).toNat,
    b * Nat.pow 10 power.toNat * Nat.pow 2 (-shift).toNat)

/-- Whether `b · 10 ^ power` reads back as `x`: the ends of the interval belong to it exactly if the
significand is even. -/
def readsBack (x : Binary64) (b : Nat) (power : Int) : Bool :=
  let (low, _, high) := x.interval
  let (significand, exponent) := x.parts
  let below := balance low (exponent - 2) b power
  let above := balance high (exponent - 2) b power
  if significand % 2 = 0 then below.1 ≤ below.2 && above.2 ≤ above.1
  else below.1 < below.2 && above.2 < above.1

/-- The multiple of `10 ^ power` that reads back as `x` and is nearest to it, if there is one. Of
two equally near ones the greater is taken. -/
def onGrid? (x : Binary64) (power : Int) : Option Nat :=
  let (significand, exponent) := x.parts
  let (n, d) := balance significand exponent 1 power
  let down := n / d
  let up := down + 1
  match x.readsBack down power, x.readsBack up power with
  | true, true => some (if 2 * (n % d) < d then down else up)
  | true, false => some down
  | false, true => some up
  | false, false => none

/-- The first of the next powers of ten, from `power` downwards, with a multiple that reads back. -/
def searchGrid (x : Binary64) : Nat → Int → Nat × Int
  | 0, power => (0, power)
  | n + 1, power =>
    match x.onGrid? power with
    | some b => (b, power)
    | none => searchGrid x n (power - 1)

/-- The fewest digits that read back as a positive finite number, and the power of ten they count.
The number has at most one digit above the power the search starts from, and seventeen digits
always read back. -/
def shortest (x : Binary64) : Nat × Int :=
  let (significand, exponent) := x.parts
  let bound : Int := (significand.log2 : Int) + 1 + exponent
  x.searchGrid 24 (Int.fdiv (bound * 30103) 100000 + 1)

/-- The number as it is shown: digits and a point, never an exponent. -/
def display (x : Binary64) : String :=
  if x = infinity then "inf"
  else if x = zero then "0"
  else
    let (coefficient, power) := x.shortest
    let digits := Nat.toDigits 10 coefficient
    if 0 ≤ power then
      String.ofList (digits ++ List.replicate power.toNat '0')
    else
      let places := (-power).toNat
      let padded := List.replicate (places + 1 - digits.length) '0' ++ digits
      let whole := padded.length - places
      String.ofList (padded.take whole ++ '.' :: padded.drop whole)

example : (ofDecimal 15 (-1)).display = "1.5" := by decide +kernel
example : (ofDecimal 1 21).display = "1000000000000000000000" := by decide +kernel
example : (ofDecimal 1 (-7)).display = "0.0000001" := by decide +kernel
example : (ofDecimal 1 23).display = "100000000000000000000000" := by decide +kernel

end Binary64

end ScriptCheck
