import InstSelect.Numeral.Shortest

/-!
# Decimal numerals

A decimal numeral is kept as it is written: sign, digits before and after the point,
exponent.

Reading one as a floating-point constant goes through a 64-bit significand. Digits that
would overflow it are dropped, with their place value kept before the point and lost after
it; the significand is then scaled by one rounded power of ten (by two of them below
`10^-308`). A result beyond the largest finite constant is refused.

Writing one starts from the shortest decimal; a `Style` says which numbers are positional
and which of two equally near decimals is taken.
-/

namespace InstSelect.Numeral

/-- A decimal numeral as written, digits most significant first. -/
structure Decimal where
  negative : Bool
  whole : List Nat
  fraction : List Nat
  exponent : Int
deriving DecidableEq, Repr

/-- The decimal digits of a number, most significant first. -/
def digitsOf (n : Nat) : List Nat :=
  (Nat.toDigits 10 n).map fun c => c.toNat - '0'.toNat

/-- Text of a digit sequence. -/
def digitsText (digits : List Nat) : String :=
  String.join (digits.map toString)

/-! ## Reading -/

/--
Appends digits to a significand while it stays below `2^64`; the digits left over come
back.
-/
def absorb (significand : Nat) : List Nat → Nat × List Nat
  | [] => (significand, [])
  | d :: rest =>
    if significand * 10 + d < UInt64.size then absorb (significand * 10 + d) rest
    else (significand, d :: rest)

/-- The rounded power of ten. -/
def powerOfTen (k : Nat) : Binary64 := Binary64.nearest (Nat.pow 10 k) 1

/-- `x · 10^e` with one rounding per power of ten, unless it is too large. -/
def scaleByTen (x : Binary64) (e : Int) : Option Binary64 :=
  if 308 < e then
    if x.magnitude = 0 then some x else none
  else if 0 ≤ e then
    let y := x.mul (powerOfTen e.toNat)
    if y.isFinite then some y else none
  else if -308 ≤ e then
    some (x.div (powerOfTen (-e).toNat))
  else if -616 ≤ e then
    some ((x.div (powerOfTen 308)).div (powerOfTen (-e - 308).toNat))
  else some (Binary64.ofMagnitude false 0)

/-- Exponents are signed 32-bit numbers and stop at the ends of that range. -/
def clampExponent (e : Int) : Int :=
  max (-(1 <<< 31)) (min (1 <<< 31 - 1) e)

namespace Decimal

/-- The constant a numeral stands for; `none` if it is too large. -/
def toBinary64? (d : Decimal) : Option Binary64 :=
  let (high, droppedWhole) := absorb 0 d.whole
  let (significand, droppedFraction) := absorb high d.fraction
  let place : Int :=
    droppedWhole.length - (d.fraction.length - droppedFraction.length : Nat)
  let unsigned :=
    if 1 <<< 31 ≤ d.exponent.natAbs then
      if significand ≠ 0 ∧ 0 < d.exponent then none
      else some (Binary64.ofMagnitude false 0)
    else scaleByTen (Binary64.nearest significand 1) (clampExponent (place + d.exponent))
  if d.negative then unsigned.map Binary64.negate else unsigned

/-- The numeral of an integer. -/
def ofInt (n : Int) : Decimal := ⟨n < 0, digitsOf n.natAbs, [], 0⟩

/-! ## Writing -/

/--
How constants are written. Positional are the numbers whose point stands after `low` and
up to `high`.
-/
structure Style where
  low : Int
  high : Int
  /-- Which of two equally near shortest decimals is taken. -/
  tie : Tie
deriving DecidableEq, Repr

/--
Lays out a shortest decimal in a style; a positional numeral has at least one decimal.
-/
def ofScientific (style : Style) (negative : Bool) (s : Scientific) : Decimal :=
  let digits := digitsOf s.digits
  let point : Int := digits.length + s.exponent
  if s.digits = 0 then ⟨negative, [0], [0], 0⟩
  else if style.low < point ∧ point ≤ style.high then
    if 0 ≤ s.exponent then
      ⟨negative, digits ++ List.replicate s.exponent.toNat 0, [0], 0⟩
    else if 0 < point then
      ⟨negative, digits.take point.toNat, digits.drop point.toNat, 0⟩
    else
      ⟨negative, [0], List.replicate (-point).toNat 0 ++ digits, 0⟩
  else
    ⟨negative, digits.take 1, digits.drop 1, point - 1⟩

/-- The shortest numeral of a finite constant, in a style. -/
def ofBinary64 (style : Style) (x : Binary64) : Decimal :=
  ofScientific style x.isNegative (x.shortest style.tie)

/-- The text of a numeral; an empty fraction and a zero exponent are left out. -/
def text (d : Decimal) : String :=
  (if d.negative then "-" else "") ++ digitsText d.whole ++
    (if d.fraction.isEmpty then "" else "." ++ digitsText d.fraction) ++
    (if d.exponent = 0 then "" else "e" ++ toString d.exponent)

end Decimal

end InstSelect.Numeral
