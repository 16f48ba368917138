import PhraseGrammar.Decimal.Binary

/-! The shortest decimal that reads back as a given binary number.

Every binary number owns the interval of reals that round to it. Grids of decimals are tried from
the coarsest one: the first grid with a point in the interval gives the digits, and of the points
of that grid the nearest one is taken. -/

namespace PhraseGrammar

/-- The number `significand · 10 ^ exponent`. -/
structure Decimal where
  significand : Nat
  exponent : Int
deriving DecidableEq

/-- Where a number goes that lies midway between two points of a grid. -/
inductive Tie
  | up
  | even
deriving DecidableEq

namespace Decimal

def trim : Nat → Decimal → Decimal
  | 0, d => d
  | fuel + 1, d =>
    if d.significand % 10 = 0 ∧ d.significand ≠ 0 then
      trim fuel ⟨d.significand / 10, d.exponent + 1⟩
    else d

end Decimal

/-- The interval of a positive binary number. The number is `middle` and the ends of its interval
are `low` and `high`, in units of `num / den`; the ends belong to it when `closed`. -/
structure RoundingInterval where
  low : Nat
  middle : Nat
  high : Nat
  num : Nat
  den : Nat
  closed : Bool

namespace RoundingInterval

/-- Half a step of the mantissa on both sides, but a quarter below a power of two, where the
steps become finer. The ends round to an even mantissa. -/
def ofBinary (b : Binary) : RoundingInterval where
  low := 4 * b.mantissa -
    if b.mantissa = Binary.leadingBit ∧ b.exponent ≠ Binary.leastExponent then 1 else 2
  middle := 4 * b.mantissa
  high := 4 * b.mantissa + 2
  num := Nat.pow 2 (b.exponent - 2).toNat
  den := Nat.pow 2 (2 - b.exponent).toNat
  closed := b.mantissa % 2 = 0

/-- Whether the point `k` of a grid lies in the interval, whose unit is `num / den` of the grid. -/
def contains (i : RoundingInterval) (num den k : Nat) : Bool :=
  if i.closed then i.low * num ≤ k * den && k * den ≤ i.high * num
  else i.low * num < k * den && k * den < i.high * num

/-- The point of the grid `10 ^ step` that stands for the number, if one lies in the interval. -/
def onGrid? (tie : Tie) (i : RoundingInterval) (step : Int) : Option Decimal :=
  let num := i.num * Nat.pow 10 (-step).toNat
  let den := i.den * Nat.pow 10 step.toNat
  let below := i.middle * num / den
  let above := below + 1
  match i.contains num den below, i.contains num den above with
  | false, false => none
  | true, false => some ⟨below, step⟩
  | false, true => some ⟨above, step⟩
  | true, true =>
    let twice := 2 * (i.middle * num)
    let midway := (2 * below + 1) * den
    if twice < midway then some ⟨below, step⟩
    else if midway < twice then some ⟨above, step⟩
    else match tie with
      | .up => some ⟨above, step⟩
      | .even => some ⟨if below % 2 = 0 then below else above, step⟩

def leadingExponent (num den : Nat) : Int :=
  if den ≤ num then ((Nat.toDigits 10 (num / den)).length : Int) - 1
  else -(((List.range 400).find? fun j => den ≤ num * Nat.pow 10 j).getD 0 : Int)

/-- Seventeen digits always suffice. -/
def shortest (tie : Tie) (i : RoundingInterval) : Decimal :=
  let top := leadingExponent (i.middle * i.num) i.den
  let found := (List.range 17).findSome? fun (more : Nat) => i.onGrid? tie (top - more)
  (found.getD ⟨0, 0⟩).trim 20

end RoundingInterval

/-- The fewest digits that read back as the number, and of these the nearest to it. -/
def Binary.shortest (tie : Tie) (b : Binary) : Decimal :=
  if b.mantissa = 0 then ⟨0, 0⟩ else (RoundingInterval.ofBinary b).shortest tie

end PhraseGrammar
