import Trance.Text.Numeral

/-!
# Reading numbers

A number is read from a whole text: an optional sign, then one of the names of the special
numbers in any case, or digits with at most one point and an optional exponent. The result is
the nearest representable number; too large a text gives infinity and too small a one zero.
-/

namespace Trance.Number

/-- A decimal as it is written: `digits * 10 ^ exponent`, and the number of digits. -/
structure Numeral where
  digits : Nat
  exponent : Int
deriving DecidableEq, Repr, Inhabited

def digitsValue (text : List Char) : Nat :=
  text.foldl (fun n c => 10 * n + (c.toNat - '0'.toNat)) 0

namespace Numeral

/-- The exponent that a text spells: an optional sign and at least one digit. -/
def exponent? (text : List Char) : Option Int :=
  let (negative, digits) :=
    match text with
    | '-' :: rest => (true, rest)
    | '+' :: rest => (false, rest)
    | _ => (false, text)
  if digits.isEmpty || !digits.all Text.isDigit then none
  else some (if negative then -digitsValue digits else digitsValue digits)

/-- The parts of a decimal text without sign. -/
def read? (text : List Char) : Option Numeral :=
  let whole := text.takeWhile Text.isDigit
  let afterWhole := text.dropWhile Text.isDigit
  let (fraction, rest) :=
    match afterWhole with
    | '.' :: more => (more.takeWhile Text.isDigit, more.dropWhile Text.isDigit)
    | _ => ([], afterWhole)
  let numeral (exponent : Int) : Numeral :=
    ⟨digitsValue (whole ++ fraction), exponent - fraction.length⟩
  if whole.isEmpty && fraction.isEmpty then none
  else
    match rest with
    | [] => some (numeral 0)
    | c :: more => if c = 'e' || c = 'E' then (exponent? more).map numeral else none

/-- The number nearest to a decimal. The size of the leading place decides the cases that
leave the range, so that no power of ten outside of it is ever formed. -/
def nearest (n : Numeral) : Float :=
  let leading : Int := (Nat.toDigits 10 n.digits).length + n.exponent
  if n.digits = 0 || leading < -330 then 0.0
  else if 310 < leading then 1.0 / 0.0
  else if 0 ≤ n.exponent then Float.ofScientific n.digits false n.exponent.toNat
  else Float.ofScientific n.digits true (-n.exponent).toNat

end Numeral

/-- The number that a text without sign spells. -/
def readUnsigned? (text : List Char) : Option Float :=
  let name := text.map Char.toLower
  if name = "inf".toList || name = "infinity".toList then some (1.0 / 0.0)
  else if name = "nan".toList then some (0.0 / 0.0)
  else (Numeral.read? text).map Numeral.nearest

/-- The number that a whole text spells, without any blanks. -/
def read? (text : List Char) : Option Float :=
  match text with
  | '-' :: rest => (readUnsigned? rest).map (- ·)
  | '+' :: rest => readUnsigned? rest
  | _ => readUnsigned? text

end Trance.Number
