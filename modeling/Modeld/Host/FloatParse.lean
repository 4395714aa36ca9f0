import Mathlib
import Modeld.Host.FloatText

/-!
# Reading floating-point numbers

`str::parse` for a binary floating-point number: the fraction that the decimal text stands for,
rounded to the nearest number of the format, halves to even.
-/

namespace Host

namespace FloatFormat

variable (f : FloatFormat)

/-- The bits of infinity. -/
def infinityBits : Nat := (2 ^ f.expBits - 1) * 2 ^ f.fracBits

/-- The bits of the number nearest to a fraction. A significand that is rounded up to the next power
of two carries into the exponent, up to infinity. -/
def nearestBits (num den : Nat) : Nat :=
  let scale := max 1 (Nat.log2 (num * 2 ^ f.bias / den) - f.fracBits)
  min ((scale - 1) * 2 ^ f.fracBits + roundHalfEven (num * 2 ^ f.bias) (den * 2 ^ scale))
    f.infinityBits

end FloatFormat

/-- The number that some digits stand for. -/
def digitsValue (digits : List Char) : Nat :=
  digits.foldl (fun n c => 10 * n + (c.toNat - '0'.toNat)) 0

/-- The exponent at the end of a number. -/
def parseExponent : List Char → Option Int
  | [] => some 0
  | c :: rest =>
    let digits := if rest.head? = some '-' ∨ rest.head? = some '+' then rest.drop 1 else rest
    if (c = 'e' ∨ c = 'E') ∧ digits ≠ [] ∧ digits.all Char.isDigit then
      some (if rest.head? = some '-' then -(digitsValue digits : Int) else digitsValue digits)
    else none

/-- A number without a sign. -/
def parseDecimal (f : FloatFormat) (s : List Char) : Option Nat :=
  let whole := s.takeWhile Char.isDigit
  let behind := s.dropWhile Char.isDigit
  let dotted := behind.head? = some '.'
  let part := if dotted then (behind.drop 1).takeWhile Char.isDigit else []
  let rest := if dotted then (behind.drop 1).dropWhile Char.isDigit else behind
  if whole = [] ∧ part = [] then none
  else
    (parseExponent rest).map fun e : Int =>
      let places : Int := e - part.length
      f.nearestBits (digitsValue (whole ++ part) * 10 ^ places.toNat) (10 ^ (-places).toNat)

/-- Infinity, and what is not a number. -/
def parseSpecial (f : FloatFormat) (s : List Char) : Option Nat :=
  let lower := s.map Char.toLower
  if lower = "inf".toList ∨ lower = "infinity".toList then some f.infinityBits
  else if lower = "nan".toList then some (f.infinityBits + 2 ^ (f.fracBits - 1))
  else none

/-- `str::parse`, with the bits of the number. -/
def parseFloat (f : FloatFormat) (s : String) : Option Nat :=
  let signed := s.toList.head? = some '-'
  let magnitude := if signed ∨ s.toList.head? = some '+' then s.toList.drop 1 else s.toList
  ((parseDecimal f magnitude).or (parseSpecial f magnitude)).map fun bits =>
    if signed then bits + 2 ^ (f.expBits + f.fracBits) else bits

end Host
