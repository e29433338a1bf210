import InstSelect.Numeral.Rounding

/-!
# Floating-point constants

A floating-point constant is its 64-bit pattern. The selector never computes with such
constants; it only stores them, narrows them to 32 bits for a data image, and reads or
writes them as decimals. All of that is exact arithmetic on the significand and exponent.
-/

namespace InstSelect.Numeral

/-- A 64-bit floating-point constant, by its bit pattern. -/
structure Binary64 where
  bits : UInt64
deriving DecidableEq, Repr

namespace Binary64

/-- The sign bit. -/
def isNegative (x : Binary64) : Bool := 1 <<< 63 ≤ x.bits.toNat

/-- The bit pattern without its sign. -/
def magnitude (x : Binary64) : Nat := x.bits.toNat % (1 <<< 63)

def exponentField (x : Binary64) : Nat := x.magnitude >>> 52

def fractionField (x : Binary64) : Nat := x.magnitude % (1 <<< 52)

/-- Neither infinite nor a NaN. -/
def isFinite (x : Binary64) : Bool := x.magnitude < Format.binary64.infinity

/-- Not a number. -/
def isNaN (x : Binary64) : Bool := Format.binary64.infinity < x.magnitude

/-- `(m, q)` with `m · 2^q` the absolute value of a finite constant. -/
def parts (x : Binary64) : Nat × Int :=
  if x.exponentField = 0 then (x.fractionField, Format.binary64.minExponent)
  else (1 <<< 52 + x.fractionField, x.exponentField - 1 + Format.binary64.minExponent)

/-- The constant with the given sign and magnitude bits. -/
def ofMagnitude (negative : Bool) (magnitude : Nat) : Binary64 :=
  ⟨UInt64.ofNat (if negative then 1 <<< 63 + magnitude else magnitude)⟩

/-- The constant nearest to `num / den`. -/
def nearest (num den : Nat) : Binary64 :=
  ofMagnitude false (Format.binary64.nearest num den)

/-- Change of sign. -/
def negate (x : Binary64) : Binary64 :=
  ofMagnitude (!x.isNegative) x.magnitude

/-- Rounded product of two finite non-negative constants. -/
def mul (x y : Binary64) : Binary64 :=
  let (m, q) := x.parts
  let (n, r) := y.parts
  let (num, den) := scaled (m * n) (q + r)
  nearest num den

/-- Rounded quotient of two finite constants, `x` non-negative and `y` positive. -/
def div (x y : Binary64) : Binary64 :=
  let (m, q) := x.parts
  let (n, r) := y.parts
  let (num, den) := scaled m (q - r)
  nearest num (den * n)

/--
The 32-bit pattern of the constant rounded to the 32-bit format. A NaN becomes quiet and
keeps the leading bits of its payload.
-/
def toBinary32 (x : Binary64) : UInt32 :=
  let magnitude :=
    if x.isNaN then Format.binary32.infinity + 1 <<< 22 +
      (x.fractionField >>> 29) % (1 <<< 22)
    else if x.isFinite then
      let (m, q) := x.parts
      let (num, den) := scaled m q
      Format.binary32.nearest num den
    else Format.binary32.infinity
  UInt32.ofNat (if x.isNegative then 1 <<< 31 + magnitude else magnitude)

end Binary64

end InstSelect.Numeral
