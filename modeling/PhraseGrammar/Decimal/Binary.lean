/-! Binary floating-point numbers taken apart: sign, whole mantissa and power of two. -/

namespace PhraseGrammar

/-- The finite number `± mantissa · 2 ^ exponent`. -/
structure Binary where
  negative : Bool
  mantissa : Nat
  exponent : Int
deriving DecidableEq

/-- What the 64 bits of a number stand for. -/
inductive Magnitude
  | nan
  | infinite (negative : Bool)
  | finite (number : Binary)
deriving DecidableEq

def Binary.leastExponent : Int := -1074

/-- The leading bit of a mantissa of full length, 2⁵². -/
def Binary.leadingBit : Nat := 0x10000000000000

/-- Sign bit, eleven bits of exponent, fifty-two bits of mantissa; the leading bit of the mantissa
is not stored, and is one unless the exponent is least. -/
def Magnitude.ofBits (bits : UInt64) : Magnitude :=
  let n := bits.toNat
  let negative := decide (0x8000000000000000 ≤ n)
  let exponent : Nat := n / Binary.leadingBit % 0x800
  let mantissa : Nat := n % Binary.leadingBit
  if exponent = 0x7FF then
    if mantissa = 0 then .infinite negative else .nan
  else if exponent = 0 then .finite ⟨negative, mantissa, Binary.leastExponent⟩
  else .finite ⟨negative, Binary.leadingBit + mantissa, Binary.leastExponent + (exponent : Int) - 1⟩

def Magnitude.ofFloat (x : Float) : Magnitude := ofBits x.toBits

end PhraseGrammar
