/-!
# Rounding to a binary floating-point format

A format is given by the widths of its fraction and exponent fields. `Format.nearest`
rounds a non-negative rational to the format, to nearest with ties to even, by exact
arithmetic on natural numbers: it finds the binade of the value, rounds the quotient by
the unit of that binade to an integer, and lets the carry of that rounding run into the
exponent field.
-/

namespace InstSelect.Numeral

/-- Where a value halfway between two integers goes. -/
inductive Tie
  /-- To the even neighbour. -/
  | even
  /-- To the upper neighbour. -/
  | up
deriving DecidableEq, Repr

/-- The integer nearest to `num / den`. -/
def roundQuotient (tie : Tie) (num den : Nat) : Nat :=
  let quotient := num / den
  let twice := 2 * (num % den)
  if twice < den then quotient
  else if den < twice then quotient + 1
  else
    match tie with
    | .even => if quotient % 2 = 0 then quotient else quotient + 1
    | .up => quotient + 1

/-- `n · 2^e` as a quotient of natural numbers. -/
def scaled (n : Nat) (e : Int) : Nat × Nat :=
  (n <<< e.toNat, 1 <<< (-e).toNat)

/-- A binary interchange format: the widths of its fraction and exponent fields. -/
structure Format where
  fractionBits : Nat
  exponentBits : Nat
deriving DecidableEq, Repr

namespace Format

def binary64 : Format := ⟨52, 11⟩

def binary32 : Format := ⟨23, 8⟩

/-- Exponent of the unit of subnormal numbers: the least `q` with `2^q` in the format. -/
def minExponent (f : Format) : Int :=
  2 - 1 <<< (f.exponentBits - 1) - f.fractionBits

/-- The bit pattern of positive infinity. -/
def infinity (f : Format) : Nat :=
  (1 <<< f.exponentBits - 1) <<< f.fractionBits

/--
The bit pattern of `m · 2^q`, for `m` a rounded significand at the unit `2^q` of its
binade.
-/
def pack (f : Format) (m : Nat) (q : Int) : Nat :=
  if m < 1 <<< f.fractionBits then m
  else min f.infinity ((q - f.minExponent).toNat <<< f.fractionBits + m)

/-- `⌊log₂ (num / den)⌋`, for positive `num` and `den`. -/
def binade (num den : Nat) : Int :=
  let guess : Int := num.log2 - den.log2
  if den <<< guess.toNat ≤ num <<< (-guess).toNat then guess else guess - 1

/-- The bit pattern of the member of the format nearest to `num / den`. -/
def nearest (f : Format) (num den : Nat) : Nat :=
  if num = 0 then 0
  else
    let q := max (binade num den - f.fractionBits) f.minExponent
    f.pack (roundQuotient .even (num <<< (-q).toNat) (den <<< q.toNat)) q

end Format

end InstSelect.Numeral
