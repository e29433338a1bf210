import InstSelect.Numeral.Binary64

/-!
# Shortest decimals

`Binary64.shortest` gives the decimal of fewest digits that reads back as a given finite
constant: among the powers of ten it takes the largest one with a multiple strictly inside
the interval of reals that round to the constant (the ends belong to it when the
significand is even), and of the multiples in the interval the one nearest to the
constant. Two multiples can be equally near, as for `2^-25 = 2.98023223876953125e-8` at
seventeen digits; a `Tie` decides between them.
-/

namespace InstSelect.Numeral

/-- `digits · 10^exponent`. -/
structure Scientific where
  digits : Nat
  exponent : Int
deriving DecidableEq, Repr

namespace Binary64

/--
The multiple of `10^k` nearest to `m · 2^q`, if the interval of reals rounding to
`m · 2^q` holds one. Ends and centre of the interval are taken in quarters of the unit
`2^q`, where the lower neighbour of a power of two is half as far as the upper one.
-/
def multipleOf (tie : Tie) (m : Nat) (q k : Int) : Option Nat :=
  let unit := Nat.pow 10 (-k).toNat <<< (q - 2).toNat
  let step := Nat.pow 10 k.toNat <<< (2 - q).toNat
  let below := if m = 1 <<< 52 ∧ Format.binary64.minExponent < q then 1 else 2
  let low := (4 * m - below) * unit
  let high := (4 * m + 2) * unit
  let centre := 4 * m * unit
  let inside (d : Nat) : Bool :=
    if m % 2 = 0 then low ≤ d * step ∧ d * step ≤ high
    else low < d * step ∧ d * step < high
  let nearest := roundQuotient tie centre step
  let floor := centre / step
  [nearest, floor, floor + 1].find? inside

/-- Searches the powers of ten downward from `10^k`. -/
def coarsestMultiple (tie : Tie) (m : Nat) (q : Int) : Int → Nat → Scientific
  | k, 0 => ⟨m <<< q.toNat, k⟩
  | k, fuel + 1 =>
    match multipleOf tie m q k with
    | some d => ⟨d, k⟩
    | none => coarsestMultiple tie m q (k - 1) fuel

/--
The shortest decimal that reads back as the absolute value of a finite constant. A value
below `2^n` lies below `10^(0.30103 n + 1)`, and seventeen digits always suffice, so a
search of twenty-two powers from there meets the interval.
-/
def shortest (tie : Tie) (x : Binary64) : Scientific :=
  let (m, q) := x.parts
  if m = 0 then ⟨0, 0⟩
  else
    let size : Int := m.log2 + 1 + q
    coarsestMultiple tie m q (size * 30103 / 100000 + 2) 22

end Binary64

end InstSelect.Numeral
