import PhraseGrammar.Cost.Basic
import PhraseGrammar.Decimal.Layout
import PhraseGrammar.Decimal.Scaling

/-! The scale of costs in use: binary floating-point numbers. They are ordered by their bits, so
that minus zero comes before zero and no two of them tie. -/

namespace PhraseGrammar

/-- The place of a number in the order of all bit patterns: numbers with a sign bit come first,
the largest of them foremost. -/
def floatRank (x : Float) : Int :=
  let n := x.toBits.toNat
  if n < 0x8000000000000000 then n else 0x7FFFFFFFFFFFFFFF - n

instance : Cost Float where
  zero := 0.0
  compare := compareOn floatRank
  isAcceptable x := x.isFinite && decide (0.0 ≤ x)
  isFree x := x == 0.0

/-- A message gives the fewest digits that read back, with all places and no idle point. -/
def plainFloat (x : Float) : String :=
  match Magnitude.ofFloat x with
  | .nan => "NaN"
  | .infinite negative => if negative then "-inf" else "inf"
  | .finite b => String.ofList ((b.shortest .up).positional false b.negative).render

/-- A document gives the fewest digits that read back, with a point from `10 ^ -5` up to but not
including `10 ^ 16`, and one digit before a power of ten elsewhere. -/
def documentNumeral? (x : Float) : Option Numeral :=
  match Magnitude.ofFloat x with
  | .finite b =>
    let d := b.shortest .even
    if d.significand = 0 ∨ (-5 ≤ d.magnitude ∧ d.magnitude < 16) then
      some (d.positional true b.negative)
    else some (d.scientific b.negative)
  | _ => none

instance : WrittenCost Float where
  plain := plainFloat
  numeral? := documentNumeral?
  ofNumeral? := Numeral.toFloat?

end PhraseGrammar
