/-!
# Numbers as binary fractions

A finite number is a sign, a mantissa below `2 ^ 53` and a power of two. Questions that have
an exact answer — is a number whole, what is left after division — are decided on
these parts in integer arithmetic.
-/

namespace Trance.Number

/-- The number `mantissa * 2 ^ exponent`, negated if `negative`. -/
structure Binary where
  negative : Bool
  mantissa : Nat
  exponent : Int
deriving DecidableEq, Repr, Inhabited

/-- The exponent of the smallest positive number. -/
def leastExponent : Int := -1074

/-- The smallest mantissa of a number that is not among the smallest ones. -/
def leadingBit : Nat := Nat.pow 2 52

namespace Binary

/-- The parts of a finite number. The infinities and NaN have none. -/
def ofFloat? (x : Float) : Option Binary :=
  let bits : Nat := x.toBits.toNat
  let negative := bits / Nat.pow 2 63 == 1
  let biased : Nat := bits / leadingBit % Nat.pow 2 11
  let fraction := bits % leadingBit
  if biased = Nat.pow 2 11 - 1 then none
  else if biased = 0 then some ⟨negative, fraction, leastExponent⟩
  else some ⟨negative, fraction + leadingBit, (biased : Int) + leastExponent - 1⟩

/-- The number with these parts, for a mantissa below `2 ^ 53` and an exponent that leaves
it representable. The mantissa is shifted until its leading bit stands where the stored form
implies it, or until the exponent can fall no further. -/
def toFloat (b : Binary) : Float :=
  let sign := if b.negative then Nat.pow 2 63 else 0
  let room := (b.exponent - leastExponent).toNat
  let shift := min (52 - b.mantissa.log2) room
  let mantissa := b.mantissa * Nat.pow 2 shift
  let biased := if mantissa < leadingBit then 0 else room - shift + 1
  let fraction := if mantissa < leadingBit then mantissa else mantissa - leadingBit
  Float.ofBits (UInt64.ofNat (sign + biased * leadingBit + fraction))

/-- The integer that the parts stand for, if they stand for one. -/
def whole? (b : Binary) : Option Int :=
  let signed (n : Nat) : Int := if b.negative then -n else n
  if 0 ≤ b.exponent then
    some (signed (b.mantissa * Nat.pow 2 b.exponent.toNat))
  else
    let unit := Nat.pow 2 (-b.exponent).toNat
    if b.mantissa % unit = 0 then some (signed (b.mantissa / unit)) else none

/-- What is left of `a` after division by `b`, with the sign of `a`. Both mantissas are
brought to the smaller of the two exponents, where the remainder is one of integers. -/
def remainder (a b : Binary) : Binary :=
  let exponent := min a.exponent b.exponent
  let dividend := a.mantissa * Nat.pow 2 (a.exponent - exponent).toNat
  let divisor := b.mantissa * Nat.pow 2 (b.exponent - exponent).toNat
  ⟨a.negative, dividend % divisor, exponent⟩

end Binary

/-- The integer that a number is, if it is finite and has no fraction. -/
def whole? (x : Float) : Option Int :=
  (Binary.ofFloat? x).bind Binary.whole?

/-- The remainder of a division whose quotient is rounded toward zero; it has the sign of the
dividend. An infinite dividend and a zero divisor leave no number, and an infinite divisor
leaves the dividend. -/
def remainder (x y : Float) : Float :=
  match Binary.ofFloat? x, Binary.ofFloat? y with
  | some a, some b => if b.mantissa = 0 then 0.0 / 0.0 else (a.remainder b).toFloat
  | some _, none => if y.isNaN then y else x
  | none, _ => 0.0 / 0.0

/-- The largest natural number below or at a number, in the range of 64 bits. Negative numbers and
NaN give zero. -/
def floorNat (x : Float) : Nat :=
  match Binary.ofFloat? x with
  | some b =>
    if b.negative then 0
    else
      let whole := b.mantissa * Nat.pow 2 b.exponent.toNat / Nat.pow 2 (-b.exponent).toNat
      min (Nat.pow 2 64 - 1) whole
  | none => if 0.0 < x then Nat.pow 2 64 - 1 else 0

/-- An integer brought into the range of 64 bits with sign by moving it to the nearer end. -/
def saturate (n : Int) : Int :=
  max (-(Nat.pow 2 63 : Nat)) (min ((Nat.pow 2 63 : Nat) - 1) n)

end Trance.Number
