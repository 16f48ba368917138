import PhraseGrammar.Decimal.Numeral

/-! Reading a numeral as a binary number. As many digits as fit into a 64-bit word make a
significand, which is then scaled by a power of ten; further digits only count as places. -/

namespace PhraseGrammar.Numeral

/-- Appends digits to a significand while it stays below 2⁶⁴. Also counts the digits appended. -/
def absorb : Nat → List Nat → Nat × Nat
  | significand, [] => (significand, 0)
  | significand, d :: ds =>
    if 10 * significand + d < wordCount then
      let (total, count) := absorb (10 * significand + d) ds
      (total, count + 1)
    else (significand, 0)

/-- A significand below 2⁶⁴ and the power of ten that belongs to it, the numeral's own power
left out. -/
def significand (n : Numeral) : Nat × Int :=
  let digits := (Nat.toDigits 10 n.whole).filterMap digit?
  let (head, taken) := absorb 0 digits
  let (all, places) := absorb head n.fraction
  (all, (digits.length - taken : Nat) - (places : Int))

/-- The power of ten nearest to `10 ^ k`, for `k` up to 308. -/
def powerOfTen (k : Nat) : Float := Float.ofScientific 1 false k

/-- Divides by `10 ^ k`, by at most `10 ^ 308` at a time. Zero stays as it is. -/
def scaleDown : Nat → Float → Nat → Float
  | 0, f, _ => f
  | fuel + 1, f, k =>
    if k ≤ 308 then f / powerOfTen k
    else if f == 0.0 then f
    else scaleDown fuel (f / powerOfTen 308) (k - 308)

def greatestPower : Nat := 0x7FFFFFFF

/-- Numbers too large for a finite result are refused; numbers too small become zero. -/
def toFloat? (n : Numeral) : Option Float :=
  let (significand, places) := n.significand
  let start := Float.ofNat significand
  let power := places + n.exponent.getD 0
  let size? : Option Float :=
    if (n.exponent.getD 0).natAbs > greatestPower then
      if 0 < power ∧ significand ≠ 0 then none else some 0.0
    else if power < 0 then some (scaleDown (power.natAbs / 308 + 1) start power.natAbs)
    else if power.toNat ≤ 308 then
      let scaled := start * powerOfTen power.toNat
      if scaled.isInf then none else some scaled
    else if significand = 0 then some start
    else none
  size?.map fun size => if n.negative then -size else size

end PhraseGrammar.Numeral
