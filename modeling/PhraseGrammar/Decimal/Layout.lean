import PhraseGrammar.Decimal.Numeral
import PhraseGrammar.Decimal.Shortest

/-! How a decimal is laid out as a numeral: with all its places, or with one digit before the point
and a power of ten. -/

namespace PhraseGrammar.Decimal

def lastDigits : Nat → Nat → List Nat
  | 0, _ => []
  | count + 1, n => lastDigits count (n / 10) ++ [n % 10]

/-- All places are written. A whole number has no point, or a zero after it where one is
asked for. -/
def positional (pointed negative : Bool) (d : Decimal) : Numeral :=
  let places := (-d.exponent).toNat
  let value := d.significand * Nat.pow 10 d.exponent.toNat
  { negative
    whole := value / Nat.pow 10 places
    fraction := if places = 0 ∧ pointed then [0] else lastDigits places value
    exponent := none }

def magnitude (d : Decimal) : Int :=
  d.exponent + (Nat.toDigits 10 d.significand).length - 1

/-- One digit stands before the point. -/
def scientific (negative : Bool) (d : Decimal) : Numeral :=
  let places := (Nat.toDigits 10 d.significand).length - 1
  { negative
    whole := d.significand / Nat.pow 10 places
    fraction := lastDigits places d.significand
    exponent := some d.magnitude }

end PhraseGrammar.Decimal
