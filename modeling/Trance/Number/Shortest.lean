import Trance.Number.Binary

/-!
# Shortest decimals

Every real close enough to a binary fraction reads back as that fraction. The shortest
decimal among them is found on the coarsest grid of multiples of a power of ten that meets the
interval of these reals; on that grid the multiple next to the fraction is taken. All
comparisons are between integers.
-/

namespace Trance.Number

/-- The number `digits * 10 ^ exponent`. -/
structure Decimal where
  digits : Nat
  exponent : Int
deriving DecidableEq, Repr, Inhabited

/-! ## Choosing the digits -/

/-- The reals that read back as one binary fraction. All three numbers count quarters of the
fraction's last place; `closed` tells whether the two ends belong to the interval. -/
structure Interval where
  low : Nat
  middle : Nat
  high : Nat
  exponent : Int
  closed : Bool
deriving DecidableEq, Repr

/-- The interval of a positive fraction. It reaches half a place to both sides, but only a
quarter down where the places below are half as wide, and it is closed where a tie reads as
the even mantissa. -/
def Interval.around (mantissa : Nat) (exponent : Int) : Interval :=
  let narrow := mantissa = leadingBit ∧ leastExponent < exponent
  { low := 4 * mantissa - (if narrow then 1 else 2)
    middle := 4 * mantissa
    high := 4 * mantissa + 2
    exponent := exponent - 2
    closed := mantissa % 2 = 0 }

/-- The multiple of `10 ^ k` inside an interval that is closest to its middle; of two that are
equally close, the larger. Only the two neighbours of the middle can be it. -/
def Interval.multiple? (i : Interval) (k : Int) : Option Nat :=
  let scale := Nat.pow 2 i.exponent.toNat * Nat.pow 10 (-k).toNat
  let unit := Nat.pow 10 k.toNat * Nat.pow 2 (-i.exponent).toNat
  let below := i.middle * scale / unit
  let above := below + 1
  let within (n : Nat) : Bool :=
    if i.closed then i.low * scale ≤ n * unit && n * unit ≤ i.high * scale
    else i.low * scale < n * unit && n * unit < i.high * scale
  if within below && within above then
    some (if 2 * i.middle * scale < (below + above) * unit then below else above)
  else if within below then some below
  else if within above then some above
  else none

/-- Tries ever finer grids, from `10 ^ k` on. The first that meets the interval gives the
shortest decimal; a grid that always does ends the search. -/
def Interval.search (i : Interval) : Nat → Int → Decimal
  | 0, k => ⟨(i.multiple? k).getD 0, k⟩
  | steps + 1, k =>
    match i.multiple? k with
    | some n => ⟨n, k⟩
    | none => i.search steps (k - 1)

/-- The shortest decimal that reads back as `mantissa * 2 ^ exponent`, for a positive
mantissa. The search starts above the fraction's leading decimal place, and seventeen
places below it are always enough. -/
def shortest (mantissa : Nat) (exponent : Int) : Decimal :=
  let bits : Int := mantissa.log2 + exponent + 1
  (Interval.around mantissa exponent).search 24 (bits * 30103 / 100000 + 1)

/-! ## Writing it out -/

/-- The positional text of a decimal: zeros fill the places up to the point. -/
def Decimal.text (d : Decimal) : List Char :=
  let digits := Nat.toDigits 10 d.digits
  if 0 ≤ d.exponent then
    digits ++ List.replicate d.exponent.toNat '0'
  else
    let places := (-d.exponent).toNat
    if places < digits.length then
      digits.take (digits.length - places) ++ '.' :: digits.drop (digits.length - places)
    else
      '0' :: '.' :: (List.replicate (places - digits.length) '0' ++ digits)

/-- The text of a number: its shortest decimal, always positional, with a sign for negative
zero too. -/
def text (x : Float) : String :=
  match Binary.ofFloat? x with
  | some b =>
    let digits := if b.mantissa = 0 then ['0'] else (shortest b.mantissa b.exponent).text
    String.ofList (if b.negative then '-' :: digits else digits)
  | none => if x.isNaN then "NaN" else if x < 0.0 then "-inf" else "inf"

end Trance.Number
