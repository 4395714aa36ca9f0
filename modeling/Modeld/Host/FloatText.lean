import Mathlib

/-!
# Floating-point numbers in text

A binary floating-point number with a fixed number of decimals, computed from its bits: the number
is a fraction, which is rounded to the nearest multiple of a power of ten, halves to even.
-/

namespace Host

/-- A binary format: the width of the exponent and of the fraction. -/
structure FloatFormat where
  expBits : Nat
  fracBits : Nat

namespace FloatFormat

/-- `f32`. -/
def single : FloatFormat := ⟨8, 23⟩

/-- `f64`. -/
def double : FloatFormat := ⟨11, 52⟩

variable (f : FloatFormat)

def isNegative (bits : Nat) : Bool := bits / 2 ^ (f.expBits + f.fracBits) % 2 = 1

def exponent (bits : Nat) : Nat := bits / 2 ^ f.fracBits % 2 ^ f.expBits

def fraction (bits : Nat) : Nat := bits % 2 ^ f.fracBits

/-- The magnitude of a finite number is `significand * 2 ^ scale / 2 ^ bias`. -/
def significand (bits : Nat) : Nat :=
  if f.exponent bits = 0 then f.fraction bits else f.fraction bits + 2 ^ f.fracBits

def scale (bits : Nat) : Nat := max (f.exponent bits) 1

def bias : Nat := 2 ^ (f.expBits - 1) - 1 + f.fracBits

end FloatFormat

/-- A fraction rounded to a natural number, halves to even. -/
def roundHalfEven (num den : Nat) : Nat :=
  let q := num / den
  let r := num % den
  if den < 2 * r ∨ (2 * r = den ∧ q % 2 = 1) then q + 1 else q

/-- A natural number in decimal, with zeros in front up to a width. -/
def padded (width n : Nat) : String :=
  let digits := Nat.toDigits 10 n
  String.ofList (List.replicate (width - digits.length) '0' ++ digits)

/-- `{:.decimals}` of a floating-point number, for at least one decimal. -/
def fixedText (f : FloatFormat) (decimals bits : Nat) : String :=
  if f.exponent bits = 2 ^ f.expBits - 1 then
    if f.fraction bits ≠ 0 then "NaN" else if f.isNegative bits then "-inf" else "inf"
  else
    let n := roundHalfEven (f.significand bits * 2 ^ f.scale bits * 10 ^ decimals) (2 ^ f.bias)
    (if f.isNegative bits then "-" else "") ++ toString (n / 10 ^ decimals) ++ "." ++
      padded decimals (n % 10 ^ decimals)

/-- One, and minus one and a half. -/
example : fixedText .single 4 0x3f800000 = "1.0000" ∧ fixedText .single 4 0xbfc00000 = "-1.5000" := by
  decide

end Host
